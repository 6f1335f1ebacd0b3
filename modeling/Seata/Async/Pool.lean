import Seata.Async.Prog

/-!
# Pools of handlers

A pool is a shared store and any number of handlers in flight. One turn either lets a handler perform its next
operation or lets one of its background tasks make one attempt; which turn comes next is arbitrary, so a `Run` is any
interleaving. A handler that is never scheduled again is one that was cut off; its background tasks go on.

What the outside world answers to a handler is fixed with the handler (`Env`): its clock readings, its fresh
identifier, which of its storage calls fail and with which error, and how each background call ends.

- `Run s₀ tr s`: from `s₀` the turns and events `tr` lead to `s`;
- `background_cases`: **all that an attempt of a task can do**;
- `exec`: the run of a given list of turns, for evaluation (`exec_run`).
-/

namespace Async

/-- How a background task ends after its failed attempts: with a successful attempt, with one more failed attempt
after which it gives up, or in a panic. -/
inductive Ending where
  | success
  | giveUp
  | panic
  deriving DecidableEq, Repr

/-- The fate of a background call: the attempts that fail and are retried, and the ending. -/
structure Outcome where
  failures : Nat
  ending : Ending
  deriving DecidableEq, Repr

/-- What joining the task answers. -/
def Outcome.verdict (o : Outcome) : Option Bool :=
  match o.ending with
  | .success => some true
  | .giveUp => some false
  | .panic => none

/-- What one handler meets: its `n`-th clock reading, its fresh identifier, the error of its `n`-th storage call (if
that call fails), and the fate of its background calls. -/
structure Env (C E : Type) where
  clock : Nat → Int
  id : String
  fault : Nat → Option E
  call : C → Outcome

/-- No storage call fails. -/
def Env.Reliable {C E : Type} (e : Env C E) : Prop := ∀ n, e.fault n = none

/-- A clock that stands still, no failing storage calls, and background calls that succeed at once. -/
def Env.calm {C E : Type} (now : Int) : Env C E := ⟨fun _ => now, "", fun _ => none, fun _ => ⟨0, .success⟩⟩

/-- A background task: its call, the attempts made so far, and whether it has ended. -/
structure Task (C : Type) where
  call : C
  posted : Nat
  finished : Bool

/-- The state of a handler besides its program. -/
structure Local (C E : Type) where
  env : Env C E
  ticks : Nat
  ios : Nat
  permits : Nat
  tasks : List (Task C)

/-- A handler that has just arrived. -/
def Local.init {C E : Type} (e : Env C E) : Local C E := ⟨e, 0, 0, 0, []⟩

/-- What a turn shows. -/
inductive Event (K V C : Type) where
  | tau
  | get (k : K) (v : Option V)
  | put (k : K) (v : V)
  | fault
  | spawn (c : C)
  | post (c : C) (ok : Bool)
  | panic (c : C)
  deriving DecidableEq

/-- A turn: handler `i` goes on, or task `j` of handler `i` does. -/
inductive Turn where
  | main (i : Nat)
  | task (i j : Nat)
  deriving DecidableEq, Repr

/-- The handler that a turn belongs to. -/
def Turn.handler : Turn → Nat
  | .main i => i
  | .task i _ => i

abbrev Store (K V : Type) : Type := Finmap fun _ : K => V

/-- A handler in flight, or finished when its program is a result. -/
structure Proc (K V C E α : Type) where
  prog : Prog K V C E α
  loc : Local C E

structure Pool (K V C E α : Type) where
  store : Store K V
  procs : List (Proc K V C E α)

/-- Every handler has returned, and none of them with an error. -/
def Pool.AllOk {K V C E α : Type} (s : Pool K V C E (Except E α)) : Prop := ∀ p ∈ s.procs, ∃ a, p.prog = .ret (.ok a)

def Prog.isOk {K V C E α : Type} : Prog K V C E (Except E α) → Bool
  | .ret (.ok _) => true
  | _ => false

instance {K V C E α : Type} (s : Pool K V C E (Except E α)) : Decidable s.AllOk :=
  decidable_of_iff (∀ p ∈ s.procs, p.prog.isOk = true) (forall₂_congr fun p _ => by
    obtain ⟨prog, loc⟩ := p
    cases prog with
    | ret r => cases r <;> simp [Prog.isOk]
    | ask o k => simp [Prog.isOk])

/-- `Semaphore::MAX_PERMITS`, which is `usize::MAX >> 3`. -/
def maxPermits : Nat := 2 ^ 61 - 1

abbrev Trace (K V C : Type) : Type := List (Turn × Event K V C)

section Steps

variable {K V C E α : Type} [DecidableEq K]

/-- One operation; `none` when the handler has to wait, and when it panics: `Semaphore::new` does with more than
`maxPermits` permits. -/
def perform (st : Store K V) (l : Local C E) : (o : Op K V C) → Option (o.Reply E × Store K V × Local C E × Event K V C)
  | .get k =>
    match l.env.fault l.ios with
    | some e => some (.error e, st, { l with ios := l.ios + 1 }, .fault)
    | none => some (.ok (st.lookup k), st, { l with ios := l.ios + 1 }, .get k (st.lookup k))
  | .put k v =>
    match l.env.fault l.ios with
    | some e => some (.error e, st, { l with ios := l.ios + 1 }, .fault)
    | none => some (.ok (), st.insert k v, { l with ios := l.ios + 1 }, .put k v)
  | .now => some (l.env.clock l.ticks, st, { l with ticks := l.ticks + 1 }, .tau)
  | .newId => some (l.env.id, st, l, .tau)
  | .semaphore n => if n ≤ maxPermits then some ((), st, { l with permits := n }, .tau) else none
  | .acquire => if l.permits = 0 then none else some ((), st, { l with permits := l.permits - 1 }, .tau)
  | .spawn c => some (l.tasks.length, st, { l with tasks := l.tasks ++ [⟨c, 0, false⟩] }, .spawn c)
  | .join h =>
    match l.tasks[h]? with
    | some t => if t.finished then some ((l.env.call t.call).verdict, st, l, .tau) else none
    | none => none

/-- One attempt of a background task. Its last attempt, or its panic, ends it and gives its permit back. -/
def background (l : Local C E) (j : Nat) : Option (Local C E × Event K V C) :=
  match l.tasks[j]? with
  | none => none
  | some t =>
    if t.finished then none
    else if t.posted < (l.env.call t.call).failures then
      some ({ l with tasks := l.tasks.set j { t with posted := t.posted + 1 } }, .post t.call false)
    else
      let l' := { l with permits := l.permits + 1, tasks := l.tasks.set j { t with finished := true } }
      match (l.env.call t.call).ending with
      | .success => some (l', .post t.call true)
      | .giveUp => some (l', .post t.call false)
      | .panic => some (l', .panic t.call)

/-- The next operation of a handler. -/
def Proc.main (st : Store K V) (p : Proc K V C E α) : Option (Store K V × Proc K V C E α × Event K V C) :=
  match p.prog with
  | .ret _ => none
  | .ask o k => (perform st p.loc o).map fun r => (r.2.1, ⟨k r.1, r.2.2.1⟩, r.2.2.2)

/-- One attempt of task `j` of a handler. -/
def Proc.task (p : Proc K V C E α) (j : Nat) : Option (Proc K V C E α × Event K V C) :=
  (background p.loc j).map fun r => (⟨p.prog, r.1⟩, r.2)

def Pool.step (s : Pool K V C E α) : Turn → Option (Pool K V C E α × Event K V C)
  | .main i => (s.procs[i]?).bind fun p =>
      (p.main s.store).map fun r => (⟨r.1, s.procs.set i r.2.1⟩, r.2.2)
  | .task i j => (s.procs[i]?).bind fun p =>
      (p.task j).map fun r => (⟨s.store, s.procs.set i r.1⟩, r.2)

/-! ### What a step can do -/

theorem Proc.main_ask {st st' : Store K V} {o : Op K V C} {k : o.Reply E → Prog K V C E α} {l : Local C E}
    {p' : Proc K V C E α} {e : Event K V C} (h : Proc.main st ⟨.ask o k, l⟩ = some (st', p', e)) :
    ∃ r l', perform st l o = some (r, st', l', e) ∧ p' = ⟨k r, l'⟩ := by
  simp only [Proc.main, Option.map_eq_some_iff, Prod.mk.injEq] at h
  obtain ⟨⟨r, st₁, l', e₁⟩, hr, rfl, rfl, rfl⟩ := h
  exact ⟨r, l', hr, rfl⟩

omit [DecidableEq K] in
theorem Proc.background_of_task {p p' : Proc K V C E α} {j : Nat} {e : Event K V C} (h : p.task j = some (p', e)) :
    ∃ l', background p.loc j = some (l', e) ∧ p' = ⟨p.prog, l'⟩ := by
  simp only [Proc.task, Option.map_eq_some_iff, Prod.mk.injEq] at h
  obtain ⟨⟨l', e₁⟩, hb, rfl, rfl⟩ := h
  exact ⟨l', hb, rfl⟩

omit [DecidableEq K] in
/-- **All that an attempt of a task can do.** -/
theorem background_cases {l l' : Local C E} {j : Nat} {e : Event K V C} (h : background l j = some (l', e)) :
    ∃ t, l.tasks[j]? = some t ∧ t.finished = false ∧
      ((t.posted < (l.env.call t.call).failures ∧ e = .post t.call false ∧
          l' = { l with tasks := l.tasks.set j { t with posted := t.posted + 1 } }) ∨
        ((l.env.call t.call).failures ≤ t.posted ∧
          (e = .post t.call true ∨ e = .post t.call false ∨ e = .panic t.call) ∧
          l' = { l with permits := l.permits + 1, tasks := l.tasks.set j { t with finished := true } })) := by
  unfold background at h
  split at h
  · cases h
  · rename_i t ht
    split at h
    · cases h
    · rename_i hf
      have hf : t.finished = false := by simpa using hf
      split at h
      · rename_i hlt
        simp only [Option.some.injEq, Prod.mk.injEq] at h
        exact ⟨t, ht, hf, .inl ⟨hlt, h.2.symm, h.1.symm⟩⟩
      · rename_i hge
        dsimp only at h
        refine ⟨t, ht, hf, .inr ⟨Nat.not_lt.mp hge, ?_⟩⟩
        split at h
        · cases h
          exact ⟨.inl rfl, rfl⟩
        · cases h
          exact ⟨.inr (.inl rfl), rfl⟩
        · cases h
          exact ⟨.inr (.inr rfl), rfl⟩

theorem Pool.main_of_step {s s' : Pool K V C E α} {i : Nat} {e : Event K V C} (h : s.step (.main i) = some (s', e)) :
    ∃ p p', s.procs[i]? = some p ∧ p.main s.store = some (s'.store, p', e) ∧ s'.procs = s.procs.set i p' := by
  simp only [Pool.step, Option.bind_eq_some_iff, Option.map_eq_some_iff, Prod.mk.injEq] at h
  obtain ⟨p, hp, ⟨st', p', e'⟩, hm, rfl, rfl⟩ := h
  exact ⟨p, p', hp, hm, rfl⟩

theorem Pool.task_of_step {s s' : Pool K V C E α} {i j : Nat} {e : Event K V C}
    (h : s.step (.task i j) = some (s', e)) :
    ∃ p p', s.procs[i]? = some p ∧ p.task j = some (p', e) ∧ s'.store = s.store ∧ s'.procs = s.procs.set i p' := by
  simp only [Pool.step, Option.bind_eq_some_iff, Option.map_eq_some_iff, Prod.mk.injEq] at h
  obtain ⟨p, hp, ⟨p', e'⟩, ht, rfl, rfl⟩ := h
  exact ⟨p, p', hp, ht, rfl, rfl⟩

/-- **Any interleaving**, with its turns and events in order. -/
inductive Run (s₀ : Pool K V C E α) : Trace K V C → Pool K V C E α → Prop
  | nil : Run s₀ [] s₀
  | snoc {tr : Trace K V C} {s s' : Pool K V C E α} {t : Turn} {e : Event K V C} :
      Run s₀ tr s → s.step t = some (s', e) → Run s₀ (tr ++ [(t, e)]) s'

/-- The run of a list of turns. -/
def Pool.exec (s : Pool K V C E α) : List Turn → Option (Trace K V C × Pool K V C E α)
  | [] => some ([], s)
  | t :: ts => (s.step t).bind fun r => (r.1.exec ts).map fun q => ((t, r.2) :: q.1, q.2)

theorem Run.trans {s₀ s s' : Pool K V C E α} {tr tr' : Trace K V C} (h : Run s₀ tr s) (h' : Run s tr' s') :
    Run s₀ (tr ++ tr') s' := by
  induction h' with
  | nil => simpa using h
  | snoc _ hs ih => rw [← List.append_assoc]; exact .snoc ih hs

theorem Run.single {s s' : Pool K V C E α} {t : Turn} {e : Event K V C} (h : s.step t = some (s', e)) :
    Run s [(t, e)] s' := .snoc .nil h

theorem exec_run : ∀ {s s' : Pool K V C E α} {ts : List Turn} {tr : Trace K V C},
    s.exec ts = some (tr, s') → Run s tr s'
  | s, s', [], tr, h => by
    simp only [Pool.exec, Option.some.injEq, Prod.mk.injEq] at h
    obtain ⟨rfl, rfl⟩ := h
    exact .nil
  | s, s', t :: ts, tr, h => by
    simp only [Pool.exec, Option.bind_eq_some_iff, Option.map_eq_some_iff, Prod.mk.injEq] at h
    obtain ⟨⟨s₁, e⟩, h₁, ⟨tr₂, s₂⟩, h₂, rfl, rfl⟩ := h
    exact (Run.single h₁).trans (exec_run h₂)

/-- A run of given turns with a given property. -/
theorem run_of_exec {s : Pool K V C E α} (ts : List Turn) (q : Trace K V C × Pool K V C E α → Bool)
    (h : (s.exec ts).any q = true) : ∃ tr s', Run s tr s' ∧ q (tr, s') = true := by
  obtain ⟨⟨tr, s'⟩, he, hq⟩ := (Option.any_eq_true q _).mp h
  exact ⟨tr, s', exec_run he, hq⟩

end Steps

section Along

variable {K V C : Type} {P : Trace K V C → Turn × Event K V C → Prop}

/-- Every step of the trace meets the condition `P` on what went before and on the step. -/
def Along (P : Trace K V C → Turn × Event K V C → Prop) (tr : Trace K V C) : Prop :=
  ∀ (n : Nat) (h : n < tr.length), P (tr.take n) tr[n]

instance [∀ tr x, Decidable (P tr x)] (tr : Trace K V C) : Decidable (Along P tr) := by
  unfold Along
  infer_instance

theorem along_snoc {tr : Trace K V C} {x : Turn × Event K V C} : Along P (tr ++ [x]) ↔ Along P tr ∧ P tr x := by
  constructor
  · intro h
    constructor
    · intro n hn
      have hn' : n < (tr ++ [x]).length := by simp; omega
      have := h n hn'
      rwa [List.take_append_of_le_length (by omega), List.getElem_append_left hn] at this
    · have := h tr.length (by simp)
      simpa using this
  · rintro ⟨h, hx⟩ n hn
    by_cases hlt : n < tr.length
    · rw [List.take_append_of_le_length (by omega), List.getElem_append_left hlt]
      exact h n hlt
    · obtain rfl : n = tr.length := by simp at hn; omega
      simpa using hx

end Along

/-- The handlers `ps`, each with its environment, arriving at the store `st`. -/
def Pool.init {K V C E α : Type} (st : Store K V) (ps : List (Prog K V C E α × Env C E)) : Pool K V C E α :=
  ⟨st, ps.map fun p => ⟨p.1, .init p.2⟩⟩

end Async
