import Seata.Async.Rules
import Mathlib.Algebra.GroupWithZero.Nat
import Mathlib.Algebra.Order.BigOperators.Group.List
import Mathlib.Algebra.Order.Group.Nat

/-!
# What background tasks do

A task makes its attempts after the handler has spawned it, and its last attempt ends it.

- `Run.spawned_before`: whatever a task posts was spawned by its own handler;
- `Run.successes_le`: the successful attempts are at most as many as the spawned calls, of any kind of call.
-/

namespace Async

variable {K V C E α : Type}

/-- Replacing an element moves a sum by the difference. -/
theorem sum_map_set {γ : Type} (f : γ → Nat) {a b : γ} : ∀ {l : List γ} {i : Nat}, l[i]? = some a →
    ((l.set i b).map f).sum + f a = (l.map f).sum + f b
  | _ :: _, 0, h => by
    obtain rfl := Option.some.inj h
    simp only [List.set_cons_zero, List.map_cons, List.sum_cons]
    omega
  | x :: l, i + 1, h => by
    have ih := sum_map_set (b := b) f (l := l) (i := i) h
    simp only [List.set_cons_succ, List.map_cons, List.sum_cons]
    omega

/-! ## Counting -/

/-- A successful attempt of a call of the kind `q`. -/
def succeeded (q : C → Bool) : Turn × Event K V C → Bool
  | (_, .post c true) => q c
  | _ => false

/-- The call of the kind `q` was spawned. -/
def started (q : C → Bool) : Turn × Event K V C → Bool
  | (_, .spawn c) => q c
  | _ => false

def successes (q : C → Bool) (tr : Trace K V C) : Nat := tr.countP (succeeded q)

def starts (q : C → Bool) (tr : Trace K V C) : Nat := tr.countP (started q)

theorem starts_snoc (q : C → Bool) (tr : Trace K V C) (x : Turn × Event K V C) :
    starts q (tr ++ [x]) = starts q tr + (started q x).toNat := by
  rw [starts, List.countP_append, List.countP_singleton, ← starts]
  cases started q x <;> rfl

theorem successes_snoc (q : C → Bool) (tr : Trace K V C) (x : Turn × Event K V C) :
    successes q (tr ++ [x]) = successes q tr + (succeeded q x).toNat := by
  rw [successes, List.countP_append, List.countP_singleton, ← successes]
  cases succeeded q x <;> rfl

theorem started_hidden {q : C → Bool} {t : Turn} {e : Event K V C} (h : e.visible = false) :
    started q (t, e) = false := by
  cases e <;> first | rfl | cases h

/-- How many tasks of a handler meet the condition. -/
def Proc.count (f : Task C → Bool) (p : Proc K V C E α) : Nat := (p.loc.tasks.map fun t => (f t).toNat).sum

/-- How many tasks of the pool meet the condition. -/
def Pool.count (f : Task C → Bool) (s : Pool K V C E α) : Nat := (s.procs.map (Proc.count f)).sum

/-- The tasks of the kind `q`, and those of them that have ended. -/
def ofKind (q : C → Bool) (t : Task C) : Bool := q t.call
def ended (q : C → Bool) (t : Task C) : Bool := q t.call && t.finished

theorem count_le {f g : Task C → Bool} (h : ∀ t, f t = true → g t = true) (s : Pool K V C E α) :
    s.count f ≤ s.count g := by
  unfold Pool.count
  apply List.sum_le_sum
  intro p _
  unfold Proc.count
  apply List.sum_le_sum
  intro t _
  have := h t
  cases hf : f t <;> cases hg : g t <;> simp_all

section Steps

variable {s s' : Pool K V C E α} {i : Nat} {e : Event K V C} {q : C → Bool}

theorem count_set {f : Task C → Bool} {p p' : Proc K V C E α} (hp : s.procs[i]? = some p)
    (hs : s'.procs = s.procs.set i p') :
    s'.count f + p.count f = s.count f + p'.count f := by
  unfold Pool.count
  rw [hs]
  exact sum_map_set (Proc.count f) hp

variable [DecidableEq K]

/-- A turn of a handler adds a task when it spawns one. -/
theorem main_count {f : Task C → Bool} (h : s.step (.main i) = some (s', e)) :
    s'.count f = s.count f + match e with
      | .spawn c => (f ⟨c, 0, false⟩).toNat
      | _ => 0 := by
  obtain ⟨p, p', hp, hm, hps⟩ := step_main h
  have hc := count_set (f := f) hp hps
  generalize s'.store = st' at hm
  cases hm with
  | silent _ tasks event =>
    have hp' : p'.count f = p.count f := by rw [Proc.count, tasks]; rfl
    rcases event with rfl | rfl <;> dsimp only <;> omega
  | read _ _ tasks =>
    have hp' : p'.count f = p.count f := by rw [Proc.count, tasks]; rfl
    dsimp only
    omega
  | write _ tasks =>
    have hp' : p'.count f = p.count f := by rw [Proc.count, tasks]; rfl
    dsimp only
    omega
  | @spawn _ c _ tasks =>
    have hp' : p'.count f = p.count f + (f ⟨c, 0, false⟩).toNat := by
      rw [Proc.count, tasks, List.map_append, List.sum_append]
      simp [Proc.count]
    dsimp only
    omega

/-- An attempt keeps the tasks and may end its own; a successful one does. -/
theorem task_count {j : Nat} (h : s.step (.task i j) = some (s', e)) :
    s'.count (ofKind q) = s.count (ofKind q) ∧
      s.count (ended q) + (succeeded q (.task i j, e)).toNat ≤ s'.count (ended q) := by
  obtain ⟨p, p', hp, ⟨-, t, t', ht, hf, hset, hcall, he⟩, -, hps⟩ := step_task h
  have hkind := count_set (f := ofKind q) hp hps
  have hended := count_set (f := ended q) hp hps
  have hk : p'.count (ofKind q) + (ofKind q t).toNat = p.count (ofKind q) + (ofKind q t').toNat := by
    unfold Proc.count
    rw [hset]
    exact sum_map_set _ ht
  have hn : p'.count (ended q) + (ended q t).toNat = p.count (ended q) + (ended q t').toNat := by
    unfold Proc.count
    rw [hset]
    exact sum_map_set _ ht
  have hold : (ended q t).toNat = 0 := by simp [ended, hf]
  have hsame : ofKind q t' = ofKind q t := by rw [ofKind, ofKind, hcall]
  rw [hsame] at hk
  refine ⟨by omega, ?_⟩
  rcases he with rfl | ⟨rfl, hfin⟩ | rfl
  · simp only [succeeded, Bool.toNat_false]
    omega
  · have hnew : (ended q t').toNat = (q t.call).toNat := by rw [ended, hfin, hcall, Bool.and_true]
    simp only [succeeded]
    omega
  · simp only [succeeded, Bool.toNat_false]
    omega

end Steps

section Runs

variable [DecidableEq K] {st : Store K V} {ps : List (Prog K V C E α × Env C E)} {s : Pool K V C E α} {tr : Trace K V C}

omit [DecidableEq K] in
theorem count_init (f : Task C → Bool) : (Pool.init st ps).count f = 0 := by
  simp [Pool.count, Pool.init, Proc.count, Local.init, List.map_map, Function.comp_def]

/-- The tasks of a kind are the spawned ones, and at least as many have ended as have succeeded. -/
theorem Run.counts (h : Run (Pool.init st ps) tr s) (q : C → Bool) :
    s.count (ofKind q) = starts q tr ∧ successes q tr ≤ s.count (ended q) := by
  induction h with
  | nil => simp [count_init, starts, successes]
  | @snoc tr s s' t e _ hs ih =>
    obtain ⟨hkind, hended⟩ := ih
    rw [starts_snoc, successes_snoc]
    cases t with
    | main i =>
      have h₁ := main_count (f := ofKind q) hs
      have h₂ := main_count (f := ended q) hs
      obtain ⟨p, p', -, hm, -⟩ := step_main hs
      generalize s'.store = st' at hm
      cases hm with
      | silent _ _ event => rcases event with rfl | rfl <;> simp [started, succeeded] at h₁ h₂ ⊢ <;> omega
      | read _ _ _ => simp [started, succeeded] at h₁ h₂ ⊢; omega
      | write _ _ => simp [started, succeeded] at h₁ h₂ ⊢; omega
      | spawn _ _ => simp [started, succeeded, ofKind, ended] at h₁ h₂ ⊢; omega
    | task i j =>
      obtain ⟨h₁, h₂⟩ := task_count (q := q) hs
      have hno : started q (Turn.task i j, e) = false := by
        obtain ⟨p, p', -, ⟨-, t, t', -, -, -, -, he⟩, -, -⟩ := step_task hs
        rcases he with rfl | ⟨rfl, -⟩ | rfl <;> rfl
      rw [hno, Bool.toNat_false]
      omega

/-- **A spawned call succeeds at most once.** -/
theorem Run.successes_le (h : Run (Pool.init st ps) tr s) (q : C → Bool) : successes q tr ≤ starts q tr := by
  obtain ⟨hkind, hended⟩ := h.counts q
  have hle : s.count (ended q) ≤ s.count (ofKind q) := count_le (fun t ht => (Bool.and_eq_true_iff.mp ht).1) s
  omega

/-- A turn of the task is an attempt or a panic of the call. -/
def Event.attempts (c : C) : Event K V C → Prop
  | .post c' _ => c' = c
  | .panic c' => c' = c
  | _ => False

/-- The tasks of a handler are calls that it has spawned. -/
theorem Run.tasks_spawned (h : Run (Pool.init st ps) tr s) {i : Nat} {p : Proc K V C E α} (hp : s.procs[i]? = some p)
    {t : Task C} (ht : t ∈ p.loc.tasks) : (.main i, .spawn t.call) ∈ tr := by
  induction h generalizing i p t with
  | nil =>
    simp only [Pool.init, List.getElem?_map, Option.map_eq_some_iff] at hp
    obtain ⟨_, _, rfl⟩ := hp
    cases ht
  | @snoc tr s s' u e _ hs ih =>
    have hold {j : Nat} {p₀ p' : Proc K V C E α} (h₀ : s.procs[j]? = some p₀) (hps : s'.procs = s.procs.set j p')
        (hnew : ∀ t ∈ p'.loc.tasks, (∃ t₀ ∈ p₀.loc.tasks, t₀.call = t.call) ∨ (u, e) = (.main j, .spawn t.call)) :
        (.main i, .spawn t.call) ∈ tr ++ [(u, e)] := by
      rw [hps] at hp
      by_cases hij : j = i
      · subst hij
        obtain rfl : p' = p := by
          rw [List.getElem?_set_self (List.getElem?_eq_some_iff.mp h₀).1] at hp
          exact Option.some.inj hp
        rcases hnew t ht with ⟨t₀, ht₀, hc⟩ | he
        · exact List.mem_append_left _ (hc ▸ ih h₀ ht₀)
        · exact List.mem_append_right _ (by rw [he]; exact List.mem_singleton_self _)
      · rw [List.getElem?_set_ne hij] at hp
        exact List.mem_append_left _ (ih hp ht)
    cases u with
    | main j =>
      obtain ⟨p₀, p', h₀, hm, hps⟩ := step_main hs
      generalize s'.store = st' at hm
      apply hold h₀ hps
      intro t' ht'
      cases hm with
      | silent _ tasks _ => exact .inl ⟨t', tasks ▸ ht', rfl⟩
      | read _ _ tasks => exact .inl ⟨t', tasks ▸ ht', rfl⟩
      | write _ tasks => exact .inl ⟨t', tasks ▸ ht', rfl⟩
      | spawn _ tasks =>
        rw [tasks] at ht'
        rcases List.mem_append.mp ht' with ht' | ht'
        · exact .inl ⟨t', ht', rfl⟩
        · rw [List.mem_singleton.mp ht']
          exact .inr rfl
    | task j n =>
      obtain ⟨p₀, p', h₀, ⟨-, t₁, t₂, h₁, -, hset, hcall, -⟩, -, hps⟩ := step_task hs
      apply hold h₀ hps
      intro t' ht'
      rw [hset] at ht'
      rcases List.mem_or_eq_of_mem_set ht' with ht' | rfl
      · exact .inl ⟨t', ht', rfl⟩
      · exact .inl ⟨t₁, List.mem_of_getElem? h₁, hcall.symm⟩

/-- **Whatever a task attempts was spawned** by its own handler. -/
theorem Run.spawned_before (h : Run (Pool.init st ps) tr s) {u : Turn} {e : Event K V C} {c : C} (hm : (u, e) ∈ tr)
    (he : e.attempts c) : (.main u.handler, .spawn c) ∈ tr := by
  induction h with
  | nil => cases hm
  | @snoc tr s s' u' e' hr hs ih =>
    rcases mem_snoc hm with hm | hm
    · exact List.mem_append_left _ (ih hm)
    · cases hm
      cases u with
      | main i =>
        obtain ⟨p, p', -, hstep, -⟩ := step_main hs
        generalize s'.store = st' at hstep
        cases hstep with
        | silent _ _ event => rcases event with rfl | rfl <;> cases he
        | _ => cases he
      | task i j =>
        obtain ⟨p, p', hp, ⟨-, t, t', ht, -, -, -, hev⟩, -, -⟩ := step_task hs
        have hspawn := hr.tasks_spawned hp (List.mem_of_getElem? ht)
        have hc : t.call = c := by rcases hev with rfl | ⟨rfl, -⟩ | rfl <;> exact he
        exact List.mem_append_left _ (hc ▸ hspawn)

end Runs

end Async
