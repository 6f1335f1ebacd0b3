import Seata.Async.Script

/-!
# Handlers with a semaphore

A handler that makes one semaphore, acquires a permit for every call that it spawns, and joins its tasks in order after
the last of them (`Disciplined`), whatever its other operations answer.

- `Proc.Bounded`: the invariant of such a handler — the tasks are an initial part of the calls, and the running ones,
  the free permits and the held one are all the permits;
- `Run.bounded`: every run keeps it;
- `Run.progress`: **it never deadlocks** — a handler that waits is waiting for a running task whose end lets it go on;
- `Proc.Permitted.ended`: when it returns, every call has been spawned once, and has ended.
-/

namespace Async

variable {K V C E α : Type}

/-! ## The discipline -/

/-- How far a handler is: before its semaphore, or with so many calls spawned and joined, and perhaps with a permit in
its hands. -/
inductive Stage where
  | unmade
  | made (spawned joined : Nat) (held : Bool)

/-- No permit is in the hands of the handler. -/
def Stage.Idle : Stage → Prop
  | .unmade => True
  | .made _ _ held => held = false

/-- The handler makes a semaphore of `n` permits, spawns the calls `cs` with a permit each, and joins them in order. -/
inductive Prog.Disciplined (n : Nat) (cs : List C) : Stage → Prog K V C E α → Prop
  | ret {a : α} : Disciplined n cs .unmade (.ret a)
  | joined {a : α} : Disciplined n cs (.made cs.length cs.length false) (.ret a)
  | get {σ : Stage} {k : K} {f : Except E (Option V) → Prog K V C E α} (idle : σ.Idle)
      (rest : ∀ r, Disciplined n cs σ (f r)) :
      Disciplined n cs σ (.ask (.get k) f)
  | put {σ : Stage} {k : K} {v : V} {f : Except E Unit → Prog K V C E α} (idle : σ.Idle)
      (rest : ∀ r, Disciplined n cs σ (f r)) :
      Disciplined n cs σ (.ask (.put k v) f)
  | now {σ : Stage} {f : Int → Prog K V C E α} (idle : σ.Idle) (rest : ∀ t, Disciplined n cs σ (f t)) :
      Disciplined n cs σ (.ask .now f)
  | newId {σ : Stage} {f : String → Prog K V C E α} (idle : σ.Idle) (rest : ∀ x, Disciplined n cs σ (f x)) :
      Disciplined n cs σ (.ask .newId f)
  | semaphore {f : Unit → Prog K V C E α} (rest : Disciplined n cs (.made 0 0 false) (f ())) :
      Disciplined n cs .unmade (.ask (.semaphore n) f)
  | acquire {a : Nat} {f : Unit → Prog K V C E α} (rest : Disciplined n cs (.made a 0 true) (f ())) :
      Disciplined n cs (.made a 0 false) (.ask .acquire f)
  | spawn {a : Nat} {c : C} {f : Nat → Prog K V C E α} (call : cs[a]? = some c)
      (rest : Disciplined n cs (.made (a + 1) 0 false) (f a)) :
      Disciplined n cs (.made a 0 true) (.ask (.spawn c) f)
  | join {b : Nat} {f : Option Bool → Prog K V C E α} (lt : b < cs.length)
      (rest : ∀ r, Disciplined n cs (.made cs.length (b + 1) false) (f r)) :
      Disciplined n cs (.made cs.length b false) (.ask (.join b) f)

/-- How many background tasks have not ended. -/
def Local.running (l : Local C E) : Nat := l.tasks.countP fun t => !t.finished

/-- What the handler awaits. -/
def Prog.awaits : Prog K V C E α → Option (Op K V C)
  | .ret _ => none
  | .ask o _ => some o

/-- The permit that a handler holds between acquiring it and giving it to a task. -/
def Prog.holds : Prog K V C E α → Nat
  | .ask (.spawn _) _ => 1
  | _ => 0

/-- The permits and the tasks of a handler that is at the stage. -/
inductive Local.Fits (n : Nat) (cs : List C) : Stage → Local C E → Prop
  | unmade {l : Local C E} (permits : l.permits = 0) (tasks : l.tasks = []) : Fits n cs .unmade l
  | made {l : Local C E} {a b : Nat} {held : Bool} (length : l.tasks.length = a) (calls : l.tasks.map Task.call <+: cs)
      (permits : l.running + l.permits + held.toNat = n) (joined : ∀ t ∈ l.tasks.take b, t.finished = true) :
      Fits n cs (.made a b held) l

/-- The semaphore is there. -/
def Stage.Made : Stage → Prop
  | .unmade => False
  | .made _ _ _ => True

/-- The program and the tasks of a handler agree on its stage. -/
structure Proc.At (n : Nat) (cs : List C) (p : Proc K V C E α) (σ : Stage) : Prop where
  prog : p.prog.Disciplined n cs σ
  loc : p.loc.Fits n cs σ

/-- **The invariant** of a handler with a semaphore. -/
def Proc.Bounded (n : Nat) (cs : List C) (p : Proc K V C E α) : Prop := ∃ σ, p.At n cs σ

/-- The same once the semaphore is there. -/
def Proc.Permitted (n : Nat) (cs : List C) (p : Proc K V C E α) : Prop := ∃ σ, σ.Made ∧ p.At n cs σ

/-! ## Fallible handlers -/

namespace Fallible

variable {n : Nat} {cs : List C} {β : Type}

/-- The discipline of a fallible handler. -/
def Disciplined (n : Nat) (cs : List C) (σ : Stage) (x : Fallible K V C E α) : Prop := x.run.Disciplined n cs σ

section Idle

variable {σ : Stage}

theorem disciplined_now {f : Int → Fallible K V C E α} (hσ : σ.Idle) (h : ∀ t, Disciplined n cs σ (f t)) :
    Disciplined n cs σ (now >>= f) := .now hσ h

theorem disciplined_put {k : K} {v : V} {f : Unit → Fallible K V C E α} (hσ : σ.Idle)
    (he : ∀ e, Disciplined n cs σ (throw e : Fallible K V C E α)) (h : Disciplined n cs σ (f ())) :
    Disciplined n cs σ (put k v >>= f) :=
  .put hσ fun r => match r with
    | .ok () => h
    | .error e => he e

end Idle

theorem disciplined_semaphore {f : Unit → Fallible K V C E α} (h : Disciplined n cs (.made 0 0 false) (f ())) :
    Disciplined n cs .unmade (semaphore n >>= f) := .semaphore h

theorem disciplined_spawn {a : Nat} {c : C} {f : Nat → Fallible K V C E α} (hc : cs[a]? = some c)
    (h : Disciplined n cs (.made (a + 1) 0 false) (f a)) :
    Disciplined n cs (.made a 0 false) (do acquire; let i ← spawn c; f i) := .acquire (.spawn hc h)

theorem disciplined_join {b : Nat} {f : Option Bool → Fallible K V C E α} (hb : b < cs.length)
    (h : ∀ r, Disciplined n cs (.made cs.length (b + 1) false) (f r)) :
    Disciplined n cs (.made cs.length b false) (join b >>= f) := .join hb h

end Fallible

/-! ## What a step does to it -/

/-- A running task can make an attempt. -/
theorem background_isSome {l : Local C E} {j : Nat} {t : Task C} (ht : l.tasks[j]? = some t) (hf : t.finished = false) :
    (background l j : Option (Local C E × Event K V C)).isSome := by
  unfold background
  rw [ht]
  simp only [hf, Bool.false_eq_true, ↓reduceIte]
  split
  · rfl
  · cases (l.env.call t.call).ending <;> rfl

/-- An attempt keeps the number of running tasks and free permits. -/
theorem running_background {l l' : Local C E} {j : Nat} {e : Event K V C} (h : background l j = some (l', e)) :
    l'.running + l'.permits = l.running + l.permits := by
  obtain ⟨t, ht, hf, hl⟩ := background_cases h
  obtain ⟨hj, rfl⟩ := List.getElem?_eq_some_iff.mp ht
  have hpos : 0 < l.running := List.countP_pos_iff.mpr ⟨l.tasks[j], List.getElem_mem hj, by simp [hf]⟩
  unfold Local.running at hpos ⊢
  rcases hl with ⟨-, -, rfl⟩ | ⟨-, -, rfl⟩
  · rw [List.countP_set hj]
    simp only [hf, Bool.not_false, ↓reduceIte]
    omega
  · rw [List.countP_set hj]
    simp only [hf, Bool.not_false, Bool.not_true, Bool.false_eq_true, ↓reduceIte]
    omega

/-- Only the permits and the tasks count. -/
theorem Local.Fits.of_eq {n : Nat} {cs : List C} {σ : Stage} {l l' : Local C E} (hl : l.Fits n cs σ)
    (hp : l'.permits = l.permits) (ht : l'.tasks = l.tasks) : l'.Fits n cs σ := by
  cases hl with
  | unmade permits tasks => exact .unmade (hp.trans permits) (ht.trans tasks)
  | made length calls permits joined =>
    refine .made (by rw [ht, length]) (by rwa [ht]) ?_ (by rwa [ht])
    rwa [Local.running, ht, hp]

/-- A new semaphore: all permits are free, and nothing is spawned. -/
theorem Local.Fits.semaphore {n : Nat} {cs : List C} {l : Local C E} (hl : l.Fits n cs .unmade) :
    Local.Fits n cs (.made 0 0 false) { l with permits := n } := by
  cases hl with
  | unmade _ tasks =>
    refine .made (by rw [tasks]; rfl) ?_ ?_ (by simp)
    · rw [tasks]
      exact List.nil_prefix
    · simp [Local.running, tasks]

theorem Local.Fits.background {n : Nat} {cs : List C} {σ : Stage} {l l' : Local C E} {j : Nat} {e : Event K V C}
    (hl : l.Fits n cs σ) (h : background l j = some (l', e)) : l'.Fits n cs σ := by
  obtain ⟨t, ht, hf, hl'⟩ := background_cases h
  cases hl with
  | unmade _ tasks => simp [tasks] at ht
  | @made _ a b held length calls permits joined =>
    have hrun := running_background h
    obtain ⟨t', htasks, hcall⟩ : ∃ t', l'.tasks = l.tasks.set j t' ∧ t'.call = t.call := by
      rcases hl' with ⟨-, -, rfl⟩ | ⟨-, -, rfl⟩
      · exact ⟨_, rfl, rfl⟩
      · exact ⟨_, rfl, rfl⟩
    refine .made ?_ ?_ (by omega) ?_
    · rw [htasks, List.length_set, length]
    · rwa [htasks, map_call_set ht hcall]
    · -- the task was not joined, for it was running
      have hb : b ≤ j := by
        by_contra hlt
        have hmem : t ∈ l.tasks.take b :=
          List.mem_of_getElem? (i := j) (by rw [List.getElem?_take_of_lt (by omega), ht])
        rw [joined t hmem] at hf
        cases hf
      rw [htasks, List.take_set_of_le hb]
      exact joined

variable [DecidableEq K] {n : Nat} {cs : List C} {p p' : Proc K V C E α}

/-- The step lemma of the handler: its next operation leads to the next stage. -/
theorem Proc.At.main {st st' : Store K V} {e : Event K V C} {σ : Stage} (ha : p.At n cs σ)
    (h : p.main st = some (st', p', e)) : ∃ σ', (σ.Made → σ'.Made) ∧ p'.At n cs σ' := by
  obtain ⟨hd, hl⟩ := ha
  obtain ⟨prog, l⟩ := p
  dsimp only at hd hl
  cases hd with
  | ret => cases h
  | joined => cases h
  | get _ rest =>
    obtain ⟨r, l', hr, rfl⟩ := Proc.main_ask h
    simp only [perform] at hr
    refine ⟨σ, id, rest _, ?_⟩
    split at hr <;> cases hr <;> exact hl.of_eq rfl rfl
  | put _ rest =>
    obtain ⟨r, l', hr, rfl⟩ := Proc.main_ask h
    simp only [perform] at hr
    refine ⟨σ, id, rest _, ?_⟩
    split at hr <;> cases hr <;> exact hl.of_eq rfl rfl
  | now _ rest =>
    cases h
    exact ⟨σ, id, rest _, hl.of_eq rfl rfl⟩
  | newId _ rest =>
    cases h
    exact ⟨σ, id, rest _, hl⟩
  | semaphore rest =>
    obtain ⟨r, l', hr, rfl⟩ := Proc.main_ask h
    simp only [perform] at hr
    split at hr
    · cases hr
      exact ⟨.made _ _ _, fun _ => trivial, rest, hl.semaphore⟩
    · cases hr
  | acquire rest =>
    obtain ⟨r, l', hr, rfl⟩ := Proc.main_ask h
    simp only [perform] at hr
    cases hl with
    | made length calls permits joined =>
      split at hr
      · cases hr
      · cases hr
        refine ⟨.made _ _ _, fun _ => trivial, rest, .made length calls ?_ joined⟩
        simp only [Local.running, Bool.toNat_false, Bool.toNat_true] at permits ⊢
        omega
  | @spawn a c f call rest =>
    cases h
    cases hl with
    | made length calls permits joined =>
      subst length
      refine ⟨.made _ _ _, fun _ => trivial, rest, .made (by simp) ?_ ?_ (by simp)⟩
      · have hlen : l.tasks.length = (l.tasks.map Task.call).length := by rw [List.length_map]
        rw [List.map_append, List.prefix_iff_eq_take.mp calls, ← hlen, List.map_singleton]
        obtain ⟨hlt, rfl⟩ := List.getElem?_eq_some_iff.mp call
        show cs.take l.tasks.length ++ [cs[l.tasks.length]] <+: cs
        rw [List.take_append_getElem hlt]
        exact List.take_prefix _ _
      · simp only [Local.running, List.countP_append, Bool.toNat_false, Bool.toNat_true] at permits ⊢
        simp only [List.countP_singleton, Bool.not_false, ↓reduceIte]
        omega
  | @join b f lt rest =>
    obtain ⟨r, l', hr, rfl⟩ := Proc.main_ask h
    simp only [perform] at hr
    cases hl with
    | made length calls permits joined =>
      split at hr
      · rename_i t ht
        split at hr
        · rename_i hf
          cases hr
          refine ⟨.made _ _ _, fun _ => trivial, rest _, .made length calls permits ?_⟩
          intro u hu
          rw [List.take_add_one, ht] at hu
          rcases List.mem_append.mp hu with hu | hu
          · exact joined u hu
          · rw [List.mem_singleton.mp hu]
            exact hf
        · cases hr
      · cases hr

/-- Making the semaphore gives the permits. -/
theorem Proc.Bounded.permitted {st st' : Store K V} {e : Event K V C} {m : Nat} (hb : p.Bounded n cs)
    (ha : p.prog.awaits = some (.semaphore m)) (h : p.main st = some (st', p', e)) : p'.Permitted n cs := by
  obtain ⟨σ, hd, hl⟩ := hb
  obtain ⟨prog, l⟩ := p
  cases prog with
  | ret a => cases ha
  | ask o f =>
    cases ha
    obtain ⟨r, l', hr, rfl⟩ := Proc.main_ask h
    simp only [perform] at hr
    split at hr
    · cases hr
      cases hd with
      | semaphore rest => exact ⟨.made _ _ _, trivial, rest, hl.semaphore⟩
    · cases hr

omit [DecidableEq K] in
/-- The step lemma of the tasks. -/
theorem Proc.At.task {j : Nat} {e : Event K V C} {σ : Stage} (ha : p.At n cs σ) (h : p.task j = some (p', e)) :
    p'.At n cs σ := by
  obtain ⟨l, hb, rfl⟩ := Proc.background_of_task h
  exact ⟨ha.prog, ha.loc.background hb⟩

/-! ## What it says -/

section Says

omit [DecidableEq K]

theorem Proc.Bounded.running_le (h : p.Bounded n cs) : p.loc.running ≤ n := by
  obtain ⟨σ, -, hl⟩ := h
  cases hl with
  | unmade _ tasks => simp [Local.running, tasks]
  | made _ _ permits _ => omega

theorem Proc.Bounded.calls (h : p.Bounded n cs) : p.loc.tasks.map Task.call <+: cs := by
  obtain ⟨σ, -, hl⟩ := h
  cases hl with
  | unmade _ tasks => simp [tasks]
  | made _ calls _ _ => exact calls

theorem Prog.Disciplined.holds {x : Prog K V C E α} {a b : Nat} {held : Bool}
    (h : x.Disciplined n cs (.made a b held)) :
    x.holds = held.toNat := by
  cases h with
  | get idle _ => obtain rfl : held = false := idle; rfl
  | put idle _ => obtain rfl : held = false := idle; rfl
  | now idle _ => obtain rfl : held = false := idle; rfl
  | newId idle _ => obtain rfl : held = false := idle; rfl
  | _ => rfl

/-- Once the semaphore is there, every permit is with a running task, free, or in the hands of the handler. -/
theorem Proc.Permitted.permits (h : p.Permitted n cs) : p.loc.running + p.loc.permits + p.prog.holds = n := by
  obtain ⟨σ, hm, hd, hl⟩ := h
  cases hl with
  | unmade => exact hm.elim
  | made _ _ permits _ => rw [hd.holds, permits]

theorem Proc.Bounded.semaphore {m : Nat} (h : p.Bounded n cs) (ha : p.prog.awaits = some (.semaphore m)) : m = n := by
  obtain ⟨σ, hd, -⟩ := h
  cases hp : p.prog with
  | ret a => rw [hp] at ha; cases ha
  | ask o f =>
    rw [hp] at ha hd
    cases ha
    cases hd
    rfl

/-- A handler that returns has spawned and joined all calls, or has not made its semaphore. -/
theorem Proc.Permitted.ended {a : α} (h : p.Permitted n cs) (hp : p.prog = .ret a) :
    p.loc.tasks.map Task.call = cs ∧ ∀ t ∈ p.loc.tasks, t.finished = true := by
  obtain ⟨σ, hm, hd, hl⟩ := h
  rw [hp] at hd
  cases hd with
  | ret => exact hm.elim
  | joined =>
    cases hl with
    | made length calls _ joined =>
      refine ⟨calls.eq_of_length (by rw [List.length_map, length]), ?_⟩
      rwa [← length, List.take_length] at joined

end Says

/-! ## Waiting -/

/-- The handler can perform its next operation. -/
def Proc.Ready (p : Proc K V C E α) : Prop :=
  match p.prog with
  | .ret _ => False
  | .ask (.semaphore n) _ => n ≤ maxPermits
  | .ask .acquire _ => 0 < p.loc.permits
  | .ask (.join h) _ => ∃ t, p.loc.tasks[h]? = some t ∧ t.finished = true
  | .ask _ _ => True

theorem main_isSome {st : Store K V} : (p.main st).isSome ↔ p.Ready := by
  obtain ⟨prog, l⟩ := p
  cases prog with
  | ret a => simp [Proc.main, Proc.Ready]
  | ask o f =>
    cases o with
    | get k => simp only [Proc.main, Proc.Ready, perform, Option.isSome_map, iff_true]; split <;> rfl
    | put k v => simp only [Proc.main, Proc.Ready, perform, Option.isSome_map, iff_true]; split <;> rfl
    | semaphore n =>
      simp only [Proc.main, Proc.Ready, perform, Option.isSome_map]
      split
      · rename_i hn
        simp only [Option.isSome_some, hn]
      · rename_i hn
        simp only [Option.isSome_none, hn, Bool.false_eq_true]
    | acquire =>
      simp only [Proc.main, Proc.Ready, perform, Option.isSome_map]
      split
      · simp only [Option.isSome_none, Bool.false_eq_true, false_iff]
        omega
      · simp only [Option.isSome_some, true_iff]
        omega
    | join h =>
      simp only [Proc.main, Proc.Ready, perform, Option.isSome_map]
      cases l.tasks[h]? with
      | none => simp
      | some t => cases hf : t.finished <;> simp [hf]
    | _ => simp [Proc.main, Proc.Ready, perform]

/-- The handler waits for its task `j` to end: for any permit, or to join it. -/
structure Proc.WaitsFor (p : Proc K V C E α) (j : Nat) : Prop where
  running : ∃ t, p.loc.tasks[j]? = some t ∧ t.finished = false
  awaits : p.prog.awaits = some .acquire ∨ p.prog.awaits = some (.join j)

omit [DecidableEq K] in
/-- An attempt leaves a handler able to go on. -/
theorem Proc.Ready.task {j : Nat} {e : Event K V C} (hr : p.Ready) (h : p.task j = some (p', e)) : p'.Ready := by
  obtain ⟨l, hb, rfl⟩ := Proc.background_of_task h
  obtain ⟨t, ht, hf, hl⟩ := background_cases hb
  obtain ⟨prog, l₀⟩ := p
  cases prog with
  | ret a => exact hr
  | ask o f =>
    cases o with
    | semaphore n => exact hr
    | acquire =>
      show 0 < l.permits
      rcases hl with ⟨-, -, rfl⟩ | ⟨-, -, rfl⟩
      · exact hr
      · exact Nat.succ_pos _
    | join i =>
      obtain ⟨u, hu, huf⟩ := hr
      -- the attempt is of another task, for this one has ended
      have hne : j ≠ i := by
        rintro rfl
        rw [Option.some.inj (ht.symm.trans hu), huf] at hf
        cases hf
      refine ⟨u, ?_, huf⟩
      rcases hl with ⟨-, -, rfl⟩ | ⟨-, -, rfl⟩ <;> exact (List.getElem?_set_ne hne).trans hu
    | _ => exact trivial

omit [DecidableEq K] in
/-- A handler waits for a task until it can go on, whichever tasks make attempts. -/
theorem Proc.WaitsFor.task {i j : Nat} {e : Event K V C} (hw : p.WaitsFor j) (h : p.task i = some (p', e)) :
    p'.WaitsFor j ∨ p'.Ready := by
  obtain ⟨l, hb, rfl⟩ := Proc.background_of_task h
  obtain ⟨t, ht, hf, hl⟩ := background_cases hb
  obtain ⟨⟨u, hu, huf⟩, haw⟩ := hw
  by_cases hij : i = j
  · subst hij
    obtain rfl : t = u := Option.some.inj (ht.symm.trans hu)
    have hi : i < p.loc.tasks.length := (List.getElem?_eq_some_iff.mp ht).1
    rcases hl with ⟨-, -, rfl⟩ | ⟨-, -, rfl⟩
    · exact .inl ⟨⟨{ t with posted := t.posted + 1 }, List.getElem?_set_self hi, hf⟩, haw⟩
    · -- the task has ended: its permit is free, and it can be joined
      right
      obtain ⟨prog, l₀⟩ := p
      cases prog with
      | ret a => simp [Prog.awaits] at haw
      | ask o f =>
        simp only [Prog.awaits, Option.some.injEq] at haw
        rcases haw with rfl | rfl
        · show 0 < l₀.permits + 1
          exact Nat.succ_pos _
        · exact ⟨_, List.getElem?_set_self hi, rfl⟩
  · refine .inl ⟨⟨u, ?_, huf⟩, haw⟩
    rcases hl with ⟨-, -, rfl⟩ | ⟨-, -, rfl⟩ <;> exact (List.getElem?_set_ne hij).trans hu

omit [DecidableEq K] in
/-- **Progress**: a handler with a semaphore, of a permit at least and not of too many, has returned, can go on, or
waits for a running task. -/
theorem Proc.Bounded.progress (hn : 0 < n) (hmax : n ≤ maxPermits) (h : p.Bounded n cs) :
    (∃ a, p.prog = .ret a) ∨ p.Ready ∨ ∃ j, p.WaitsFor j := by
  obtain ⟨σ, hd, hl⟩ := h
  obtain ⟨prog, l⟩ := p
  dsimp only at hd hl
  cases hd with
  | ret => exact .inl ⟨_, rfl⟩
  | joined => exact .inl ⟨_, rfl⟩
  | semaphore => exact .inr (.inl hmax)
  | acquire =>
    cases hl with
    | made _ _ permits _ =>
      rcases Nat.eq_zero_or_pos l.permits with h0 | hpos
      · -- all permits are with running tasks
        have hrun : 0 < l.running := by
          simp only [Bool.toNat_false] at permits
          omega
        obtain ⟨t, ht, hf⟩ := List.countP_pos_iff.mp hrun
        obtain ⟨j, hj⟩ := List.mem_iff_getElem?.mp ht
        exact .inr (.inr ⟨j, ⟨t, hj, by simpa using hf⟩, .inl rfl⟩)
      · exact .inr (.inl hpos)
  | @join b f lt rest =>
    cases hl with
    | made length _ _ _ =>
      obtain ⟨t, ht⟩ : ∃ t, l.tasks[b]? = some t := ⟨_, List.getElem?_eq_getElem (by omega)⟩
      cases hf : t.finished with
      | true => exact .inr (.inl ⟨t, ht, hf⟩)
      | false => exact .inr (.inr ⟨b, ⟨t, ht, hf⟩, .inr rfl⟩)
  | _ => exact .inr (.inl trivial)

/-! ## Runs -/

/-- What the turns of a handler and the attempts of its tasks keep holds after every run. -/
theorem Run.handler {P : Proc K V C E α → Prop} {s s' : Pool K V C E α} {tr : Trace K V C} {i : Nat} (h : Run s tr s')
    (hmain : (∃ x ∈ tr, x.1 = .main i) → ∀ {p p' : Proc K V C E α} {st st' : Store K V} {e : Event K V C}, P p →
      p.main st = some (st', p', e) → P p')
    (htask : ∀ {p p' : Proc K V C E α} {j : Nat} {e : Event K V C}, P p → p.task j = some (p', e) → P p')
    (hp : s.procs[i]? = some p) (hP : P p) : ∃ p', s'.procs[i]? = some p' ∧ P p' := by
  induction h with
  | nil => exact ⟨p, hp, hP⟩
  | @snoc tr s₁ s₂ t e _ hs ih =>
    obtain ⟨p₁, hp₁, hP₁⟩ := ih fun ⟨x, hx, hxi⟩ => hmain ⟨x, List.mem_append_left _ hx, hxi⟩
    have hset {k : Nat} {q q' : Proc K V C E α} (hq : s₁.procs[k]? = some q) (hqs : s₂.procs = s₁.procs.set k q')
        (hstep : k = i → P q → P q') : ∃ p', s₂.procs[i]? = some p' ∧ P p' := by
      rw [hqs]
      by_cases hki : k = i
      · subst hki
        obtain rfl : p₁ = q := Option.some.inj (hp₁.symm.trans hq)
        exact ⟨q', List.getElem?_set_self (List.getElem?_eq_some_iff.mp hq).1, hstep rfl hP₁⟩
      · exact ⟨p₁, by rw [List.getElem?_set_ne hki, hp₁], hP₁⟩
    cases t with
    | main k =>
      obtain ⟨q, q', hq, hm, hqs⟩ := Pool.main_of_step hs
      refine hset hq hqs ?_
      rintro rfl hPq
      exact hmain ⟨_, List.mem_append_right _ (List.mem_singleton_self _), rfl⟩ hPq hm
    | task k j =>
      obtain ⟨q, q', hq, ht, -, hqs⟩ := Pool.task_of_step hs
      exact hset hq hqs fun _ hPq => htask hPq ht

section Runs

variable {s s' : Pool K V C E α} {tr : Trace K V C} {i : Nat}

omit [DecidableEq K] in
/-- The only handler of a pool. -/
theorem eq_of_procs {q : Proc K V C E α} (hp : s.procs = [p]) (hq : s.procs[i]? = some q) : i = 0 ∧ q = p := by
  rw [hp] at hq
  cases i with
  | zero => exact ⟨rfl, (Option.some.inj hq).symm⟩
  | succ i => cases hq

theorem Run.bounded (h : Run s tr s') (hp : s.procs[i]? = some p) (hb : p.Bounded n cs) :
    ∃ p', s'.procs[i]? = some p' ∧ p'.Bounded n cs := by
  refine h.handler (fun _ => ?_) ?_ hp hb
  · rintro _ _ _ _ _ ⟨σ, ha⟩ hm
    obtain ⟨σ', -, ha'⟩ := ha.main hm
    exact ⟨σ', ha'⟩
  · rintro _ _ _ _ ⟨σ, ha⟩ ht
    exact ⟨σ, ha.task ht⟩

theorem Run.permitted (h : Run s tr s') (hp : s.procs[i]? = some p) (hb : p.Permitted n cs) :
    ∃ p', s'.procs[i]? = some p' ∧ p'.Permitted n cs := by
  refine h.handler (fun _ => ?_) ?_ hp hb
  · rintro _ _ _ _ _ ⟨σ, hm, ha⟩ hmain
    obtain ⟨σ', hm', ha'⟩ := ha.main hmain
    exact ⟨σ', hm' hm, ha'⟩
  · rintro _ _ _ _ ⟨σ, hm, ha⟩ ht
    exact ⟨σ, hm, ha.task ht⟩

/-- Handler `i` waits for its task `j`: the task is running, and the handler can go on once it has ended, whatever the
others did meanwhile. -/
def Pool.Waits (s : Pool K V C E α) (i j : Nat) : Prop :=
  (s.step (.task i j)).isSome ∧ ∀ tr s', Run s tr s' → (∀ x ∈ tr, x.1 ≠ .main i) → s'.step (.task i j) = none →
    (s'.step (.main i)).isSome

theorem step_main_isSome (hp : s.procs[i]? = some p) : (s.step (.main i)).isSome ↔ p.Ready := by
  rw [Pool.step, hp, Option.bind_some, Option.isSome_map, main_isSome]

theorem step_task_isSome {j : Nat} {t : Task C} (hp : s.procs[i]? = some p) (ht : p.loc.tasks[j]? = some t)
    (hf : t.finished = false) :
    (s.step (.task i j)).isSome := by
  rw [Pool.step, hp, Option.bind_some, Option.isSome_map, Proc.task, Option.isSome_map]
  exact background_isSome ht hf

theorem Proc.WaitsFor.waits {j : Nat} (hp : s.procs[i]? = some p) (hw : p.WaitsFor j) : s.Waits i j := by
  obtain ⟨t, ht, hf⟩ := hw.running
  refine ⟨step_task_isSome hp ht hf, fun tr s' h hno hend => ?_⟩
  have hinv : ∃ p', s'.procs[i]? = some p' ∧ (p'.WaitsFor j ∨ p'.Ready) := by
    refine h.handler (fun ⟨x, hx, hxi⟩ => absurd hxi (hno x hx)) ?_ hp (.inl hw)
    rintro _ _ _ _ (hw | hr) ht
    · exact hw.task ht
    · exact .inr (hr.task ht)
  obtain ⟨p', hp', hw' | hr⟩ := hinv
  · obtain ⟨t', ht', hf'⟩ := hw'.running
    have := step_task_isSome hp' ht' hf'
    rw [hend] at this
    cases this
  · exact (step_main_isSome hp').mpr hr

/-- On the way from `s` to `s'` the handler has made a semaphore of `m` permits. -/
def MadeSemaphore (s : Pool K V C E α) (i m : Nat) (s' : Pool K V C E α) : Prop :=
  ∃ tr₁ s₁ p₁ s₂ e tr₂, Run s tr₁ s₁ ∧ s₁.procs[i]? = some p₁ ∧ p₁.prog.awaits = some (.semaphore m) ∧
    s₁.step (.main i) = some (s₂, e) ∧ Run s₂ tr₂ s'

/-- **Every permit is accounted for** once the semaphore is there. -/
theorem MadeSemaphore.permitted {m : Nat} (h : MadeSemaphore s i m s')
    (hb : ∀ tr₁ s₁ p₁ m, Run s tr₁ s₁ → s₁.procs[i]? = some p₁ → p₁.prog.awaits = some (.semaphore m) →
      p₁.Bounded n cs) :
    m = n ∧ ∃ p', s'.procs[i]? = some p' ∧ p'.Permitted n cs := by
  obtain ⟨tr₁, s₁, p₁, s₂, e, tr₂, h₁, hp₁, ha, hs, h₂⟩ := h
  have hb₁ := hb tr₁ s₁ p₁ m h₁ hp₁ ha
  refine ⟨hb₁.semaphore ha, ?_⟩
  obtain ⟨p, p₂, hp, hm, hps⟩ := Pool.main_of_step hs
  obtain rfl : p₁ = p := Option.some.inj (hp₁.symm.trans hp)
  refine h₂.permitted ?_ (hb₁.permitted ha hm)
  rw [hps]
  exact List.getElem?_set_self (List.getElem?_eq_some_iff.mp hp₁).1

/-- **No deadlock**: at any time the handler has returned, can go on, or waits for a running task. -/
theorem Run.progress (h : Run s tr s') (hp : s.procs[i]? = some p) (hb : p.Bounded n cs) (hn : 0 < n)
    (hmax : n ≤ maxPermits) :
    (∃ p' a, s'.procs[i]? = some p' ∧ p'.prog = .ret a) ∨ (s'.step (.main i)).isSome ∨ ∃ j, s'.Waits i j := by
  obtain ⟨p', hp', hb'⟩ := h.bounded hp hb
  rcases hb'.progress hn hmax with ⟨a, ha⟩ | hr | ⟨j, hw⟩
  · exact .inl ⟨p', a, hp', ha⟩
  · exact .inr (.inl ((step_main_isSome hp').mpr hr))
  · exact .inr (.inr ⟨j, hw.waits hp'⟩)

end Runs

end Async
