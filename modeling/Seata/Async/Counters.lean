import Seata.Async.Joined
import Mathlib.Algebra.BigOperators.Group.Finset.Basic
import Mathlib.Algebra.Order.BigOperators.Group.Finset

/-!
# Counting what comes of tasks

Two counters are kept beside a run: a task counts itself when it ends in a success, and the handler counts the task when
it joins it and finds that it was none (`Counting`). For handlers that join their tasks in order:

- `Proc.Tallied`: the invariant of a handler: **no task is counted twice** (`le_length`), and a handler that has
  returned has counted each of its tasks, under the outcome of its call (`returned`);
- `Counting.successes`, `Counting.length_le`: the same for the totals.
-/

namespace Async

variable {K V C E α : Type}

/-! ## Counting -/

/-- The handler is about to join a task without a success. -/
def Proc.joinsFailure (p : Proc K V C E α) : Bool :=
  match p.prog with
  | .ask (.join h) _ => (p.loc.tasks[h]?).any fun t => (p.loc.env.call t.call).verdict != some true
  | _ => false

/-- The last attempt of a task has succeeded. -/
def Event.accepted : Event K V C → Bool
  | .post _ ok => ok
  | _ => false

/-- What a turn counts: its handler, and whether it is a success. -/
def Pool.counted (s : Pool K V C E α) : Turn → Event K V C → Option (Nat × Bool)
  | .main i, _ => if (s.procs[i]?).any Proc.joinsFailure then some (i, false) else none
  | .task i _, e => if e.accepted then some (i, true) else none

/-- A run, and all that was counted along it. -/
inductive Counting [DecidableEq K] (s₀ : Pool K V C E α) :
    Trace K V C → Pool K V C E α → List (Nat × Bool) → Prop
  | nil : Counting s₀ [] s₀ []
  | snoc {tr : Trace K V C} {s s' : Pool K V C E α} {ns : List (Nat × Bool)} {t : Turn} {e : Event K V C} :
      Counting s₀ tr s ns → s.step t = some (s', e) →
        Counting s₀ (tr ++ [(t, e)]) s' (ns ++ (s.counted t e).toList)

section Runs

variable [DecidableEq K] {s₀ s : Pool K V C E α} {tr : Trace K V C} {ns : List (Nat × Bool)}

theorem Counting.run (h : Counting s₀ tr s ns) : Run s₀ tr s := by
  induction h with
  | nil => exact .nil
  | snoc _ hs ih => exact ih.snoc hs

/-- Counting does not change what can happen. -/
theorem Run.counting (h : Run s₀ tr s) : ∃ ns, Counting s₀ tr s ns := by
  induction h with
  | nil => exact ⟨[], .nil⟩
  | snoc _ hs ih =>
    obtain ⟨ns, hns⟩ := ih
    exact ⟨_, hns.snoc hs⟩

end Runs

/-! ## The invariant of a handler -/

/-- The call of the task succeeds. -/
def Task.accepted (env : Env C E) (t : Task C) : Bool := (env.call t.call).verdict == some true

/-- The handler has joined its first `n` tasks and counted the failures among them; the successes have counted
themselves. -/
structure Proc.Tallied (i : Nat) (ns : List (Nat × Bool)) (p : Proc K V C E α) (n : Nat) : Prop where
  le : n ≤ p.loc.tasks.length
  prog : p.prog.Joins (List.range' n (p.loc.tasks.length - n))
  joined : ∀ t ∈ p.loc.tasks.take n, t.finished = true
  failures : ns.count (i, false) = (p.loc.tasks.take n).countP fun t => !t.accepted p.loc.env
  successes : ns.count (i, true) = p.loc.tasks.countP fun t => t.finished && t.accepted p.loc.env

namespace Proc.Tallied

variable {i n : Nat} {ns : List (Nat × Bool)} {p p' : Proc K V C E α}

theorem init (i : Nat) {q : Prog K V C E α} (h : q.Joins []) (e : Env C E) :
    (⟨q, .init e⟩ : Proc K V C E α).Tallied i [] 0 where
  le := Nat.zero_le _
  prog := h
  joined := nofun
  failures := rfl
  successes := rfl

/-- A step that leaves the tasks and the counters alone. -/
theorem goOn (h : p.Tallied i ns n) {q : Prog K V C E α} {l : Local C E}
    (hprog : q.Joins (List.range' n (p.loc.tasks.length - n))) (henv : l.env = p.loc.env)
    (htasks : l.tasks = p.loc.tasks) : (⟨q, l⟩ : Proc K V C E α).Tallied i ns n := by
  obtain ⟨env, ticks, ios, permits, tasks⟩ := l
  subst henv htasks
  exact ⟨h.le, hprog, h.joined, h.failures, h.successes⟩

/-- Somebody else counts. -/
theorem other (h : p.Tallied i ns n) {xs : List (Nat × Bool)} (hxs : ∀ x ∈ xs, x.1 ≠ i) :
    p.Tallied i (ns ++ xs) n where
  le := h.le
  prog := h.prog
  joined := h.joined
  failures := by
    rw [List.count_append, List.count_eq_zero_of_not_mem fun hm => hxs _ hm rfl]
    exact h.failures
  successes := by
    rw [List.count_append, List.count_eq_zero_of_not_mem fun hm => hxs _ hm rfl]
    exact h.successes

variable [DecidableEq K] {st st' : Store K V} {e : Event K V C}

/-- The step lemma of the handler. -/
theorem main (h : p.Tallied i ns n) (hm : p.main st = some (st', p', e)) :
    ∃ n', p'.Tallied i (ns ++ (if p.joinsFailure then some (i, false) else none).toList) n' := by
  obtain ⟨prog, l⟩ := p
  -- nothing is counted, and the tasks stay as they are
  have hquiet {q : Prog K V C E α} {l' : Local C E} (hnone : (⟨prog, l⟩ : Proc K V C E α).joinsFailure = false)
      (hq : q.Joins (List.range' n (l.tasks.length - n))) (henv : l'.env = l.env) (htasks : l'.tasks = l.tasks) :
      ∃ n', (⟨q, l'⟩ : Proc K V C E α).Tallied i
        (ns ++ (if (⟨prog, l⟩ : Proc K V C E α).joinsFailure then some (i, false) else none).toList) n' := by
    rw [hnone, if_neg Bool.false_ne_true, Option.toList_none, List.append_nil]
    exact ⟨n, h.goOn hq henv htasks⟩
  have hprog := h.prog
  dsimp only at hprog
  generalize hhs : List.range' n (l.tasks.length - n) = hs at hprog
  cases hprog with
  | ret => cases hm
  | get rest =>
    obtain ⟨r, l', hr, rfl⟩ := Proc.main_ask hm
    simp only [perform] at hr
    split at hr <;> cases hr
    · exact hquiet rfl (hhs ▸ rest _) rfl rfl
    · exact hquiet rfl (hhs ▸ rest _) rfl rfl
  | put rest =>
    obtain ⟨r, l', hr, rfl⟩ := Proc.main_ask hm
    simp only [perform] at hr
    split at hr <;> cases hr
    · exact hquiet rfl (hhs ▸ rest _) rfl rfl
    · exact hquiet rfl (hhs ▸ rest _) rfl rfl
  | now rest =>
    cases hm
    exact hquiet rfl (hhs ▸ rest _) rfl rfl
  | newId rest =>
    cases hm
    exact hquiet rfl (hhs ▸ rest _) rfl rfl
  | semaphore rest =>
    obtain ⟨r, l', hr, rfl⟩ := Proc.main_ask hm
    simp only [perform] at hr
    split at hr <;> cases hr
    exact hquiet rfl (hhs ▸ rest) rfl rfl
  | acquire rest =>
    obtain ⟨r, l', hr, rfl⟩ := Proc.main_ask hm
    simp only [perform] at hr
    split at hr <;> cases hr
    exact hquiet rfl (hhs ▸ rest) rfl rfl
  | @spawn _ c f rest =>
    cases hm
    have hle : n ≤ l.tasks.length := h.le
    have htake : (l.tasks ++ [(⟨c, 0, false⟩ : Task C)]).take n = l.tasks.take n := List.take_append_of_le_length hle
    have hrange : List.range' n (l.tasks.length + 1 - n) = hs ++ [l.tasks.length] := by
      rw [← hhs, Nat.succ_sub hle, List.range'_1_concat, Nat.add_sub_cancel' hle]
    have hnone : (⟨.ask (.spawn c) f, l⟩ : Proc K V C E α).joinsFailure = false := rfl
    rw [hnone, if_neg Bool.false_ne_true, Option.toList_none, List.append_nil]
    refine ⟨n, ?_, ?_, ?_, ?_, ?_⟩ <;> dsimp only
    · rw [List.length_append]
      omega
    · rw [List.length_append, List.length_singleton, hrange]
      exact rest _
    · rw [htake]
      exact h.joined
    · rw [htake]
      exact h.failures
    · rw [List.countP_append, h.successes]
      rfl
  | @join m hs f rest =>
    obtain ⟨r, l', hr, rfl⟩ := Proc.main_ask hm
    simp only [perform] at hr
    split at hr
    · rename_i t ht
      split at hr <;> cases hr
      rename_i hf
      -- it is the turn of the first task that was not joined yet
      obtain ⟨hmn, hhs⟩ : m = n ∧ hs = List.range' (n + 1) (l.tasks.length - (n + 1)) := by
        cases hlen : l.tasks.length - n with
        | zero => rw [hlen] at hhs; cases hhs
        | succ k =>
          rw [hlen, List.range'_succ] at hhs
          obtain rfl : l.tasks.length - (n + 1) = k := by omega
          exact ⟨(List.cons.inj hhs).1.symm, (List.cons.inj hhs).2.symm⟩
      subst hmn
      have hlt : m < l.tasks.length := (List.getElem?_eq_some_iff.mp ht).1
      have htake : l.tasks.take (m + 1) = l.tasks.take m ++ [t] := by
        rw [List.take_add_one, ht, Option.toList_some]
      have hjoins : (⟨.ask (.join m) f, l⟩ : Proc K V C E α).joinsFailure = !t.accepted l.env := by
        simp only [joinsFailure, ht, Option.any_some, Task.accepted, bne]
      rw [hjoins]
      refine ⟨m + 1, hlt, hhs ▸ rest _, ?_, ?_, ?_⟩ <;> dsimp only
      · rw [htake]
        intro u hu
        rcases List.mem_append.mp hu with hu | hu
        · exact h.joined u hu
        · rw [List.mem_singleton.mp hu]
          exact hf
      · rw [htake, List.countP_append, List.count_append, h.failures]
        cases hacc : t.accepted l.env <;> simp [hacc]
      · rw [List.count_append, h.successes]
        cases t.accepted l.env <;> simp
    · cases hr

omit [DecidableEq K] in
/-- An attempt ends its task in a success, or in none, or not at all. -/
theorem background_accepted {l l' : Local C E} {j : Nat} (h : background l j = some (l', e)) :
    l'.env = l.env ∧ ∃ t t', l.tasks[j]? = some t ∧ t.finished = false ∧ l'.tasks = l.tasks.set j t' ∧
      t'.call = t.call ∧ e.accepted = (t'.finished && t'.accepted l.env) := by
  unfold background at h
  split at h
  · cases h
  · rename_i t ht
    split at h
    · cases h
    · rename_i hf
      have hf : t.finished = false := by simpa using hf
      split at h
      · cases h
        exact ⟨rfl, t, _, ht, hf, rfl, rfl, by simp [Event.accepted, hf]⟩
      · dsimp only at h
        split at h <;> rename_i hend <;> cases h
        all_goals exact ⟨rfl, t, _, ht, hf, rfl, rfl, by simp [Event.accepted, Task.accepted, Outcome.verdict, hend]⟩

omit [DecidableEq K] in
/-- The step lemma of the tasks. -/
theorem task {j : Nat} (h : p.Tallied i ns n) (ht : p.task j = some (p', e)) :
    p'.Tallied i (ns ++ (if e.accepted then some (i, true) else none).toList) n := by
  obtain ⟨l, hb, rfl⟩ := Proc.background_of_task ht
  obtain ⟨henv, t, t', hj, hf, htasks, hcall, haccepted⟩ := background_accepted hb
  have hlt : j < p.loc.tasks.length := (List.getElem?_eq_some_iff.mp hj).1
  -- the task was not joined yet
  have hnj : n ≤ j := by
    by_contra hjn
    have hmem : t ∈ p.loc.tasks.take n :=
      List.mem_of_getElem? (by rw [List.getElem?_take_of_lt (Nat.lt_of_not_le hjn)]; exact hj)
    rw [h.joined t hmem] at hf
    cases hf
  have htake : l.tasks.take n = p.loc.tasks.take n := by rw [htasks, List.take_set_of_le hnj]
  have hlen : l.tasks.length = p.loc.tasks.length := by rw [htasks, List.length_set]
  refine ⟨hlen ▸ h.le, hlen ▸ h.prog, htake ▸ h.joined, ?_, ?_⟩ <;> dsimp only
  · rw [htake, henv, List.count_append, h.failures]
    cases e.accepted <;> simp
  · have hold : p.loc.tasks[j].finished = false := (List.getElem?_eq_some_iff.mp hj).2 ▸ hf
    rw [htasks, henv, List.count_append, h.successes, List.countP_set hlt, ← haccepted, hold, Bool.false_and]
    cases e.accepted <;> simp

omit [DecidableEq K] in
/-- No task is counted twice. -/
theorem le_length (h : p.Tallied i ns n) : ns.count (i, true) + ns.count (i, false) ≤ p.loc.tasks.length := by
  have hsuccess : p.loc.tasks.countP (fun t => t.finished && t.accepted p.loc.env) ≤
      p.loc.tasks.countP fun t => t.accepted p.loc.env :=
    List.countP_mono_left fun t _ ht => (Bool.and_eq_true_iff.mp ht).2
  have hfailure : (p.loc.tasks.take n).countP (fun t => !t.accepted p.loc.env) ≤
      p.loc.tasks.countP fun t => !t.accepted p.loc.env :=
    (List.take_sublist n _).countP_le
  have hlen := List.length_eq_countP_add_countP (fun t => t.accepted p.loc.env) (l := p.loc.tasks)
  simp only [Bool.not_eq_true, Bool.decide_eq_false] at hlen
  rw [h.successes, h.failures]
  omega

omit [DecidableEq K] in
/-- **A handler that has returned** has counted each task under its outcome. -/
theorem returned (h : p.Tallied i ns n) {a : α} (ha : p.prog = .ret a) :
    ns.count (i, true) = p.loc.tasks.countP (Task.accepted p.loc.env) ∧
      ns.count (i, false) = p.loc.tasks.countP fun t => !t.accepted p.loc.env := by
  have hn : n = p.loc.tasks.length := by
    have hprog := h.prog
    rw [ha] at hprog
    generalize hhs : List.range' n (p.loc.tasks.length - n) = hs at hprog
    cases hprog
    have hlen := congrArg List.length hhs
    rw [List.length_range', List.length_nil] at hlen
    exact Nat.le_antisymm h.le (Nat.le_of_sub_eq_zero hlen)
  have hjoined := h.joined
  rw [hn, List.take_length] at hjoined
  refine ⟨h.successes.trans (List.countP_congr fun t ht => ?_), ?_⟩
  · rw [hjoined t ht, Bool.true_and]
  · rw [h.failures, hn, List.take_length]

end Proc.Tallied

/-! ## Runs -/

/-- The parts of a list by a key below `N`. -/
theorem countP_eq_sum {β : Type} {q : β → Bool} {key : β → Nat} {N : Nat} :
    ∀ {l : List β}, (∀ x ∈ l, key x < N) → l.countP q = ∑ i ∈ Finset.range N, l.countP fun x => q x && key x == i
  | [], _ => by simp
  | x :: l, h => by
    have hx := h x List.mem_cons_self
    have hl := countP_eq_sum (q := q) fun y hy => h y (List.mem_cons_of_mem x hy)
    simp only [List.countP_cons, Finset.sum_add_distrib, ← hl]
    cases q x <;> simp [hx]

theorem sum_range_getElem? {β : Type} (f : β → Nat) : ∀ l : List β,
    ∑ i ∈ Finset.range l.length, (l[i]?.map f).getD 0 = (l.map f).sum
  | [] => rfl
  | x :: l => by
    rw [List.length_cons, Finset.sum_range_succ', List.map_cons, List.sum_cons, Nat.add_comm]
    exact congrArg (f x + ·) (sum_range_getElem? f l)

section Runs

variable [DecidableEq K] {st : Store K V} {ps : List (Prog K V C E α × Env C E)} {s₀ s : Pool K V C E α}
  {tr : Trace K V C} {ns : List (Nat × Bool)}

omit [DecidableEq K] in
/-- Only the handler of the turn counts. -/
theorem handler_of_counted {t : Turn} {e : Event K V C} {x : Nat × Bool} (h : x ∈ s.counted t e) :
    x.1 = t.handler := by
  cases t with
  | main i =>
    simp only [Pool.counted, Option.mem_def, Option.ite_none_right_eq_some, Option.some.injEq] at h
    exact h.2 ▸ rfl
  | task i j =>
    simp only [Pool.counted, Option.mem_def, Option.ite_none_right_eq_some, Option.some.injEq] at h
    exact h.2 ▸ rfl

theorem Counting.handler_lt (h : Counting s₀ tr s ns) : ∀ x ∈ ns, x.1 < s.procs.length := by
  induction h with
  | nil => exact nofun
  | @snoc tr s s' ns t e _ hs ih =>
    obtain ⟨p, p', hp, hps⟩ : ∃ p p', s.procs[t.handler]? = some p ∧ s'.procs = s.procs.set t.handler p' := by
      cases t with
      | main i =>
        obtain ⟨p, p', hp, -, hps⟩ := Pool.main_of_step hs
        exact ⟨p, p', hp, hps⟩
      | task i j =>
        obtain ⟨p, p', hp, -, -, hps⟩ := Pool.task_of_step hs
        exact ⟨p, p', hp, hps⟩
    rw [hps, List.length_set]
    intro x hx
    rcases List.mem_append.mp hx with hx | hx
    · exact ih x hx
    · rw [handler_of_counted (Option.mem_toList.mp hx)]
      exact (List.getElem?_eq_some_iff.mp hp).1

/-- The tasks that count themselves are those that the trace shows to succeed. -/
theorem Counting.successes (h : Counting s₀ tr s ns) : ns.countP Prod.snd = successes (fun _ => true) tr := by
  induction h with
  | nil => rfl
  | @snoc tr s s' ns t e _ hs ih =>
    rw [List.countP_append, successes_snoc, ih]
    congr 1
    cases t with
    | main i =>
      obtain ⟨p, p', -, hm, -⟩ := step_main hs
      generalize s'.store = st' at hm
      have hno : succeeded (fun _ => true) (.main i, e) = false := by
        cases hm with
        | silent _ _ event => rcases event with rfl | rfl <;> rfl
        | _ => rfl
      rw [hno, Pool.counted]
      split <;> rfl
    | task i j =>
      have hyes : succeeded (fun _ => true) (.task i j, e) = e.accepted := by
        cases e with
        | post c ok => cases ok <;> rfl
        | _ => rfl
      rw [hyes, Pool.counted]
      cases e.accepted <;> rfl

theorem Counting.tallied (h : Counting (Pool.init st ps) tr s ns) (hps : ∀ p ∈ ps, p.1.Joins []) :
    ∀ (i : Nat) (p : Proc K V C E α), s.procs[i]? = some p → ∃ n, p.Tallied i ns n := by
  induction h with
  | nil =>
    intro i p hp
    rw [Pool.init, List.getElem?_map, Option.map_eq_some_iff] at hp
    obtain ⟨x, hx, rfl⟩ := hp
    exact ⟨0, .init i (hps x (List.mem_of_getElem? hx)) x.2⟩
  | @snoc tr s s' ns t e _ hs ih =>
    -- the handler that moves counts, and the others do not
    have hset {q' : Proc K V C E α} (hqs : s'.procs = s.procs.set t.handler q')
        (hq' : ∃ n, q'.Tallied t.handler (ns ++ (s.counted t e).toList) n) :
        ∀ (i : Nat) (p : Proc K V C E α), s'.procs[i]? = some p →
          ∃ n, p.Tallied i (ns ++ (s.counted t e).toList) n := by
      intro i p hp
      rw [hqs] at hp
      rcases getElem?_set_cases hp with ⟨rfl, rfl⟩ | ⟨hne, hp⟩
      · exact hq'
      · obtain ⟨n, hn⟩ := ih i p hp
        exact ⟨n, hn.other fun x hx => by rw [handler_of_counted (Option.mem_toList.mp hx)]; exact Ne.symm hne⟩
    cases t with
    | main i =>
      obtain ⟨p, p', hp, hm, hps'⟩ := Pool.main_of_step hs
      obtain ⟨n, hn⟩ := ih i p hp
      refine hset hps' ?_
      rw [Pool.counted, hp, Option.any_some]
      exact hn.main hm
    | task i j =>
      obtain ⟨p, p', hp, ht, -, hps'⟩ := Pool.task_of_step hs
      obtain ⟨n, hn⟩ := ih i p hp
      exact hset hps' ⟨n, hn.task ht⟩

/-- All that was counted, by handlers. -/
theorem Counting.length_eq (h : Counting s₀ tr s ns) :
    ns.length = ∑ i ∈ Finset.range s.procs.length, (ns.count (i, true) + ns.count (i, false)) := by
  have hcount (i : Nat) (b : Bool) : (ns.countP fun x => (x.2 == b) && x.1 == i) = ns.count (i, b) :=
    List.countP_congr fun x _ => by obtain ⟨j, c⟩ := x; simp [and_comm]
  have hsplit (b : Bool) : ns.countP (fun x => x.2 == b) = ∑ i ∈ Finset.range s.procs.length, ns.count (i, b) := by
    rw [countP_eq_sum h.handler_lt]
    exact Finset.sum_congr rfl fun i _ => hcount i b
  rw [Finset.sum_add_distrib, ← hsplit, ← hsplit, List.length_eq_countP_add_countP (fun x => x.2 == true)]
  congr 1
  exact List.countP_congr fun x _ => by cases x.2 <;> simp

/-- The spawned calls, by handlers. -/
theorem Run.starts_eq (h : Run (Pool.init st ps) tr s) : starts (fun _ => true) tr =
    ∑ i ∈ Finset.range s.procs.length, ((s.procs[i]?).map fun p => p.loc.tasks.length).getD 0 := by
  rw [← (h.counts fun _ => true).1, sum_range_getElem?, Pool.count]
  refine congrArg List.sum (List.map_congr_left fun p _ => ?_)
  simp [Proc.count, ofKind]

/-- **Not more is counted than was spawned**, and just as much once all handlers have returned. -/
theorem Counting.length_le (h : Counting (Pool.init st ps) tr s ns) (hps : ∀ p ∈ ps, p.1.Joins []) :
    ns.length ≤ starts (fun _ => true) tr ∧
      ((∀ p ∈ s.procs, ∃ a, p.prog = .ret a) → ns.length = starts (fun _ => true) tr) := by
  have hget {i : Nat} (hi : i ∈ Finset.range s.procs.length) : ∃ p n, s.procs[i]? = some p ∧ p.Tallied i ns n := by
    have hp := List.getElem?_eq_getElem (Finset.mem_range.mp hi)
    obtain ⟨n, hn⟩ := h.tallied hps i _ hp
    exact ⟨_, n, hp, hn⟩
  rw [h.length_eq, h.run.starts_eq]
  constructor
  · refine Finset.sum_le_sum fun i hi => ?_
    obtain ⟨p, n, hp, hn⟩ := hget hi
    rw [hp, Option.map_some, Option.getD_some]
    exact hn.le_length
  · intro hret
    refine Finset.sum_congr rfl fun i hi => ?_
    obtain ⟨p, n, hp, hn⟩ := hget hi
    obtain ⟨a, ha⟩ := hret p (List.mem_of_getElem? hp)
    obtain ⟨hsuccess, hfailure⟩ := hn.returned ha
    rw [hp, Option.map_some, Option.getD_some, hsuccess, hfailure,
      List.length_eq_countP_add_countP (Task.accepted p.loc.env)]
    simp

end Runs

end Async
