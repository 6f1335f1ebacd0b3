import Seata.Async.Permits
import Seata.Async.Tasks
import Mathlib.Logic.Hydra

/-!
# Every run comes to an end

A turn of a handler leads to a part of its program, and an attempt of a task leaves one attempt less. So no run of a
pool goes on for ever (`wellFounded_next`), whatever the handlers are.

A handler is orderly when it makes at most one semaphore, with a permit at least and at most `maxPermits`, and keeps the
discipline of a semaphore from there on (`Prog.Orderly`). A pool of orderly handlers has a turn left until all of them
have returned and all of their tasks have ended (`final_iff_ended`): **whatever the schedule, the run ends with every
handler answered**.
-/

namespace Async

variable {K V C E α β : Type}

/-! ## Termination -/

/-- What a program goes on with after an operation. -/
inductive Prog.Next : Prog K V C E α → Prog K V C E α → Prop
  | intro {o : Op K V C} {k : o.Reply E → Prog K V C E α} (r : o.Reply E) : Next (k r) (.ask o k)

theorem Prog.acc_next : ∀ p : Prog K V C E α, Acc Prog.Next p
  | .ret _ => .intro _ fun _ h => nomatch h
  | .ask _ k => .intro _ fun _ h => match h with
    | .intro r => acc_next (k r)

/-- The attempts that a task can still make. -/
def Task.left (env : Env C E) (t : Task C) : Nat := if t.finished then 0 else (env.call t.call).failures - t.posted + 1

/-- The attempts that the tasks of a handler can still make. -/
def Local.left (l : Local C E) : Nat := (l.tasks.map (Task.left l.env)).sum

/-- The handler is further: in its program, or in the attempts of its tasks. -/
def Proc.Further : Proc K V C E α → Proc K V C E α → Prop :=
  InvImage (Prod.Lex Prog.Next (· < ·)) fun p => (p.prog, p.loc.left)

theorem wellFounded_further : WellFounded fun p' p : Proc K V C E α => p'.Further p :=
  InvImage.wf _ (WellFounded.prod_lex ⟨Prog.acc_next⟩ Nat.lt_wfRel.wf)

/-- An attempt leaves a task with one attempt less. -/
theorem left_background {l l' : Local C E} {j : Nat} {e : Event K V C} (h : background l j = some (l', e)) :
    l'.left < l.left := by
  obtain ⟨t, ht, hf, ⟨hlt, -, rfl⟩ | ⟨hge, -, rfl⟩⟩ := background_cases h
  · have hsum := sum_map_set (Task.left l.env) (b := { t with posted := t.posted + 1 }) ht
    have ht' : Task.left l.env { t with posted := t.posted + 1 } < Task.left l.env t := by
      simp only [Task.left, hf, Bool.false_eq_true, ↓reduceIte]
      omega
    simp only [Local.left]
    omega
  · have hsum := sum_map_set (Task.left l.env) (b := { t with finished := true }) ht
    have ht' : Task.left l.env { t with finished := true } < Task.left l.env t := by
      simp only [Task.left, hf, Bool.false_eq_true, ↓reduceIte]
      omega
    simp only [Local.left]
    omega

theorem Proc.further_task {p p' : Proc K V C E α} {j : Nat} {e : Event K V C} (h : p.task j = some (p', e)) :
    p'.Further p := by
  obtain ⟨l', hb, rfl⟩ := Proc.background_of_task h
  exact .right _ (left_background hb)

/-- Replacing an element moves a multiset by the difference. -/
theorem coe_set {γ : Type} {a b : γ} : ∀ {l : List γ} {i : Nat}, l[i]? = some a →
    (↑(l.set i b) : Multiset γ) + {a} = ↑l + {b}
  | c :: l, 0, h => by
    obtain rfl : c = a := by simpa using h
    rw [List.set_cons_zero, ← Multiset.cons_coe, ← Multiset.cons_coe, Multiset.cons_add, Multiset.cons_add,
      Multiset.add_comm, Multiset.add_comm _ {b}, Multiset.singleton_add, Multiset.singleton_add, Multiset.cons_swap]
  | c :: l, i + 1, h => by
    have ih := coe_set (b := b) (l := l) (i := i) (by simpa using h)
    rw [List.set_cons_succ, ← Multiset.cons_coe, ← Multiset.cons_coe, Multiset.cons_add, Multiset.cons_add, ih]

section Termination

variable [DecidableEq K] {s s' s₀ : Pool K V C E α} {t : Turn} {e : Event K V C} {tr : Trace K V C}

theorem Proc.further_main {st st' : Store K V} {p p' : Proc K V C E α} (h : p.main st = some (st', p', e)) :
    p'.Further p := by
  obtain ⟨prog, l⟩ := p
  cases prog with
  | ret a => cases h
  | ask o k =>
    obtain ⟨r, l', -, rfl⟩ := Proc.main_ask h
    exact .left _ _ (.intro r)

/-- A turn leads from one pool to the next. -/
def Pool.Next (s' s : Pool K V C E α) : Prop := ∃ t e, s.step t = some (s', e)

theorem cutExpand_step (h : s.step t = some (s', e)) :
    Relation.CutExpand Proc.Further (↑s'.procs : Multiset (Proc K V C E α)) ↑s.procs := by
  obtain ⟨i, p, p', hp, hfurther, hps⟩ : ∃ (i : Nat) (p p' : Proc K V C E α), s.procs[i]? = some p ∧ p'.Further p ∧
      s'.procs = s.procs.set i p' := by
    cases t with
    | main i =>
      obtain ⟨p, p', hp, hm, hps⟩ := Pool.main_of_step h
      exact ⟨i, p, p', hp, Proc.further_main hm, hps⟩
    | task i j =>
      obtain ⟨p, p', hp, ht, -, hps⟩ := Pool.task_of_step h
      exact ⟨i, p, p', hp, Proc.further_task ht, hps⟩
  exact ⟨{p'}, p, by simpa using hfurther, by rw [hps, coe_set hp]⟩

/-- **No run goes on for ever.** -/
theorem wellFounded_next : WellFounded fun s' s : Pool K V C E α => s'.Next s :=
  Subrelation.wf (fun ⟨_, _, h⟩ => cutExpand_step h)
    (InvImage.wf (fun s : Pool K V C E α => (s.procs : Multiset (Proc K V C E α))) wellFounded_further.cutExpand)

/-- No turn is possible. -/
def Pool.Final (s : Pool K V C E α) : Prop := ∀ t, s.step t = none

/-- Every pool can run until no turn is possible. -/
theorem exists_final (s : Pool K V C E α) : ∃ tr s', Run s tr s' ∧ s'.Final := by
  have hwf : WellFounded fun s' s : Pool K V C E α => s'.Next s := wellFounded_next
  induction s using hwf.induction with
  | h s ih =>
    by_cases hs : s.Final
    · exact ⟨[], s, .nil, hs⟩
    · simp only [Pool.Final, not_forall] at hs
      obtain ⟨t, ht⟩ := hs
      obtain ⟨⟨s₁, e⟩, hstep⟩ := Option.ne_none_iff_exists'.mp ht
      obtain ⟨tr, s', hr, hf⟩ := ih s₁ ⟨t, e, hstep⟩
      exact ⟨_, s', (Run.single hstep).trans hr, hf⟩

end Termination

/-! ## Orderly handlers -/

/-- The handler makes at most one semaphore, with a permit at least and not with too many, and keeps its discipline from
there on. -/
inductive Prog.Orderly : Prog K V C E α → Prop
  | ret {a : α} : Orderly (.ret a)
  | get {k : K} {f : Except E (Option V) → Prog K V C E α} (rest : ∀ r, Orderly (f r)) : Orderly (.ask (.get k) f)
  | put {k : K} {v : V} {f : Except E Unit → Prog K V C E α} (rest : ∀ r, Orderly (f r)) : Orderly (.ask (.put k v) f)
  | now {f : Int → Prog K V C E α} (rest : ∀ t, Orderly (f t)) : Orderly (.ask .now f)
  | newId {f : String → Prog K V C E α} (rest : ∀ x, Orderly (f x)) : Orderly (.ask .newId f)
  | semaphore {n : Nat} {cs : List C} {f : Unit → Prog K V C E α} (pos : 0 < n) (le : n ≤ maxPermits)
      (rest : (f ()).Disciplined n cs (.made 0 0 false)) : Orderly (.ask (.semaphore n) f)

/-- The discipline goes on when the result is only changed. -/
theorem Prog.Disciplined.map {n : Nat} {cs : List C} (g : α → β) : ∀ {σ : Stage} {p : Prog K V C E α},
    p.Disciplined n cs σ → (p >>= fun a => .ret (g a)).Disciplined n cs σ
  | _, _, .ret => .ret
  | _, _, .joined => .joined
  | _, _, .get idle rest => .get idle fun r => (rest r).map g
  | _, _, .put idle rest => .put idle fun r => (rest r).map g
  | _, _, .now idle rest => .now idle fun t => (rest t).map g
  | _, _, .newId idle rest => .newId idle fun x => (rest x).map g
  | _, _, .semaphore rest => .semaphore (rest.map g)
  | _, _, .acquire rest => .acquire (rest.map g)
  | _, _, .spawn call rest => .spawn call (rest.map g)
  | _, _, .join lt rest => .join lt fun r => (rest r).map g

theorem Prog.Orderly.map (g : α → β) : ∀ {p : Prog K V C E α}, p.Orderly → (p >>= fun a => .ret (g a)).Orderly
  | _, .ret => .ret
  | _, .get rest => .get fun r => (rest r).map g
  | _, .put rest => .put fun r => (rest r).map g
  | _, .now rest => .now fun t => (rest t).map g
  | _, .newId rest => .newId fun x => (rest x).map g
  | _, .semaphore pos le rest => .semaphore pos le (rest.map g)

/-- A handler with the discipline of a semaphore is orderly. -/
theorem Prog.Disciplined.orderly {n : Nat} {cs : List C} (hn : 0 < n) (hmax : n ≤ maxPermits) {σ : Stage}
    {p : Prog K V C E α} (h : p.Disciplined n cs σ) (hσ : σ = .unmade) : p.Orderly := by
  induction h with
  | ret => exact .ret
  | joined => cases hσ
  | get _ _ ih => exact .get fun r => ih r hσ
  | put _ _ ih => exact .put fun r => ih r hσ
  | now _ _ ih => exact .now fun t => ih t hσ
  | newId _ _ ih => exact .newId fun x => ih x hσ
  | semaphore rest _ => exact .semaphore hn hmax rest
  | acquire _ _ => cases hσ
  | spawn _ _ _ => cases hσ
  | join _ _ _ => cases hσ

namespace Fallible

/-- A property that handlers without tasks have: it passes through gets, puts, clock readings and new identifiers. -/
structure Closed (P : ∀ α : Type, Fallible K V C E α → Prop) : Prop where
  pure : ∀ {α : Type} (a : α), P α (Pure.pure a)
  throw : ∀ {α : Type} (e : E), P α (MonadExcept.throw e)
  get : ∀ {α : Type} {k : K} {f : Option V → Fallible K V C E α}, (∀ v, P α (f v)) → P α (get k >>= f)
  put : ∀ {α : Type} {k : K} {v : V} {f : Unit → Fallible K V C E α}, P α (f ()) → P α (put k v >>= f)
  now : ∀ {α : Type} {f : Int → Fallible K V C E α}, (∀ t, P α (f t)) → P α (now >>= f)
  newId : ∀ {α : Type} {f : String → Fallible K V C E α}, (∀ x, P α (f x)) → P α (newId >>= f)
  map : ∀ {α β : Type} {x : Fallible K V C E α} (g : α → β), P α x → P β (x >>= fun a => Pure.pure (g a))

/-- The result of a handler, changed: an error stays. -/
theorem run_map (x : Fallible K V C E α) (g : α → β) :
    (x >>= fun a => Pure.pure (g a) : Fallible K V C E β).run =
      x.run >>= fun r => Prog.ret (r.map g) := by
  refine congrArg (x.run >>= ·) (funext fun r => ?_)
  cases r <;> rfl

/-- An orderly handler that may fail. -/
def Orderly (x : Fallible K V C E α) : Prop := x.run.Orderly

theorem closed_orderly : Closed fun _ (x : Fallible K V C E _) => Orderly x where
  pure _ := .ret
  throw _ := .ret
  get h := by
    refine .get fun r => ?_
    cases r with
    | error e => exact .ret
    | ok v => exact h v
  put h := by
    refine .put fun r => ?_
    cases r with
    | error e => exact .ret
    | ok _ => exact h
  now h := .now h
  newId h := .newId h
  map {_ _ x} g h := by
    rw [Orderly, run_map]
    exact Prog.Orderly.map _ h

end Fallible

/-- **The invariant** of an orderly handler: it has returned, has no semaphore yet, or is bounded by one. -/
inductive Proc.Ordered (p : Proc K V C E α) : Prop
  | returned {a : α} (prog : p.prog = .ret a)
  | unmade (prog : p.prog.Orderly) (permits : p.loc.permits = 0) (tasks : p.loc.tasks = [])
  | made {n : Nat} {cs : List C} (pos : 0 < n) (le : n ≤ maxPermits) (bounded : p.Bounded n cs)

/-- All handlers have returned, and all tasks have ended. -/
def Pool.Ended (s : Pool K V C E α) : Prop :=
  ∀ p ∈ s.procs, (∃ a, p.prog = .ret a) ∧ ∀ t ∈ p.loc.tasks, t.finished = true

theorem ordered_init {p : Prog K V C E α} (h : p.Orderly) (e : Env C E) : Proc.Ordered ⟨p, .init e⟩ := .unmade h rfl rfl

section Answers

variable [DecidableEq K] {p p' : Proc K V C E α} {s s' : Pool K V C E α} {tr : Trace K V C}

/-- The step lemma of the handler. -/
theorem Proc.Ordered.main {st st' : Store K V} {e : Event K V C} (hp : p.Ordered)
    (h : p.main st = some (st', p', e)) : p'.Ordered := by
  cases hp with
  | returned prog =>
    rw [Proc.main, prog] at h
    cases h
  | made pos le bounded =>
    obtain ⟨σ, ha⟩ := bounded
    obtain ⟨σ', -, ha'⟩ := ha.main h
    exact .made pos le ⟨σ', ha'⟩
  | unmade prog permits tasks =>
    obtain ⟨prog, l⟩ := p
    dsimp only at prog permits tasks
    cases prog with
    | ret => cases h
    | get rest =>
      obtain ⟨r, l', hr, rfl⟩ := Proc.main_ask h
      simp only [perform] at hr
      split at hr <;> cases hr <;> exact .unmade (rest _) permits tasks
    | put rest =>
      obtain ⟨r, l', hr, rfl⟩ := Proc.main_ask h
      simp only [perform] at hr
      split at hr <;> cases hr <;> exact .unmade (rest _) permits tasks
    | now rest =>
      obtain ⟨r, l', hr, rfl⟩ := Proc.main_ask h
      cases hr
      exact .unmade (rest _) permits tasks
    | newId rest =>
      obtain ⟨r, l', hr, rfl⟩ := Proc.main_ask h
      cases hr
      exact .unmade (rest _) permits tasks
    | semaphore pos le rest =>
      obtain ⟨r, l', hr, rfl⟩ := Proc.main_ask h
      simp only [perform, le, ↓reduceIte] at hr
      cases hr
      exact .made pos le ⟨_, rest, Local.Fits.semaphore (.unmade permits tasks)⟩

omit [DecidableEq K] in
/-- The step lemma of the tasks. -/
theorem Proc.Ordered.task {j : Nat} {e : Event K V C} (hp : p.Ordered) (h : p.task j = some (p', e)) :
    p'.Ordered := by
  cases hp with
  | returned prog =>
    obtain ⟨l, -, rfl⟩ := Proc.background_of_task h
    exact .returned prog
  | made pos le bounded =>
    obtain ⟨σ, ha⟩ := bounded
    exact .made pos le ⟨σ, ha.task h⟩
  | unmade prog permits tasks =>
    obtain ⟨l, hb, rfl⟩ := Proc.background_of_task h
    obtain ⟨t, ht, -⟩ := background_cases hb
    rw [tasks] at ht
    cases ht

omit [DecidableEq K] in
/-- An orderly handler has returned, can go on, or waits for a running task of its own. -/
theorem Proc.Ordered.progress (h : p.Ordered) : (∃ a, p.prog = .ret a) ∨ p.Ready ∨ ∃ j, p.WaitsFor j := by
  cases h with
  | returned prog => exact .inl ⟨_, prog⟩
  | made pos le bounded => exact bounded.progress pos le
  | unmade prog _ _ =>
    obtain ⟨prog, l⟩ := p
    dsimp only at prog
    cases prog with
    | ret => exact .inl ⟨_, rfl⟩
    | semaphore _ le _ => exact .inr (.inl le)
    | _ => exact .inr (.inl trivial)

theorem ordered_step {t : Turn} {e : Event K V C} (hstep : s.step t = some (s', e)) (hs : ∀ p ∈ s.procs, p.Ordered) :
    ∀ p ∈ s'.procs, p.Ordered := by
  cases t with
  | main i =>
    obtain ⟨p, p', hp, hm, hps⟩ := Pool.main_of_step hstep
    rw [hps]
    exact forall_mem_set hs ((hs p (List.mem_of_getElem? hp)).main hm)
  | task i j =>
    obtain ⟨p, p', hp, ht, -, hps⟩ := Pool.task_of_step hstep
    rw [hps]
    exact forall_mem_set hs ((hs p (List.mem_of_getElem? hp)).task ht)

theorem Run.ordered (h : Run s tr s') (hs : ∀ p ∈ s.procs, p.Ordered) : ∀ p ∈ s'.procs, p.Ordered := by
  induction h with
  | nil => exact hs
  | snoc _ hstep ih => exact ordered_step hstep ih

/-- Nothing is left to do just when all handlers have returned and all tasks have ended. -/
theorem final_iff_ended (hs : ∀ p ∈ s.procs, p.Ordered) : s.Final ↔ s.Ended := by
  constructor
  · intro hf p hp
    obtain ⟨i, hi⟩ := List.getElem?_of_mem hp
    -- a running task could make an attempt
    have htasks : ∀ t ∈ p.loc.tasks, t.finished = true := by
      intro t ht
      obtain ⟨j, hj⟩ := List.getElem?_of_mem ht
      by_contra hrun
      have hstep := step_task_isSome hi hj (by simpa using hrun)
      rw [hf] at hstep
      cases hstep
    rcases (hs p hp).progress with hret | hready | ⟨j, ⟨t, ht, hrun⟩, -⟩
    · exact ⟨hret, htasks⟩
    · have hstep := (step_main_isSome hi).mpr hready
      rw [hf] at hstep
      cases hstep
    · rw [htasks t (List.mem_of_getElem? ht)] at hrun
      cases hrun
  · intro hended t
    rw [← Option.not_isSome_iff_eq_none]
    intro hstep
    obtain ⟨⟨s', e⟩, hstep⟩ := Option.isSome_iff_exists.mp hstep
    cases t with
    | main i =>
      obtain ⟨p, p', hp, hm, -⟩ := Pool.main_of_step hstep
      obtain ⟨⟨a, ha⟩, -⟩ := hended p (List.mem_of_getElem? hp)
      rw [Proc.main, ha] at hm
      cases hm
    | task i j =>
      obtain ⟨p, p', hp, ht, -⟩ := Pool.task_of_step hstep
      obtain ⟨l, hb, -⟩ := Proc.background_of_task ht
      obtain ⟨u, hu, hf, -⟩ := background_cases hb
      rw [(hended p (List.mem_of_getElem? hp)).2 u (List.mem_of_getElem? hu)] at hf
      cases hf

end Answers

end Async
