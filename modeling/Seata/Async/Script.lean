import Seata.Async.Pool

/-!
# What a handler does to the store

With its environment fixed, all that another handler can notice of a handler is the sequence of its gets, puts and
spawned calls, each depending on what was read before. `resolve` computes this `Script` from the program: clock
readings, semaphores and joins disappear, and a failing storage call becomes the error path.

- `main_steps`: a turn of a handler either leaves its script alone or performs the head of it — **all that a turn can
  do**; `task_steps` is the same for a background attempt;
- `Script.exec`: the script run alone on a store; `run_alone`: a handler that runs with nobody else in the pool does
  exactly that, as far as it gets.
-/

namespace Async

variable {K V C E : Type}

/-- The visible behaviour of a handler. -/
inductive Script (K V C β : Type) : Type
  | done (b : β)
  | read (k : K) (f : Option V → Script K V C β)
  | write (k : K) (v : V) (s : Script K V C β)
  | spawn (c : C) (s : Script K V C β)

/-- The part of the local state that answers the operations. -/
structure Core (C E : Type) where
  env : Env C E
  ticks : Nat
  ios : Nat
  calls : List C

def Core.init (e : Env C E) : Core C E := ⟨e, 0, 0, []⟩

def Local.core (l : Local C E) : Core C E := ⟨l.env, l.ticks, l.ios, l.tasks.map Task.call⟩

namespace Core

def tick (c : Core C E) : Core C E := { c with ticks := c.ticks + 1 }
def io (c : Core C E) : Core C E := { c with ios := c.ios + 1 }
def call (c : Core C E) (x : C) : Core C E := { c with calls := c.calls ++ [x] }

/-- What joining the `h`-th spawned task answers. -/
def joined (c : Core C E) (h : Nat) : Option Bool := (c.calls[h]?).bind fun x => (c.env.call x).verdict

end Core

variable {α β γ : Type}

namespace Script

def bind : Script K V C β → (β → Script K V C γ) → Script K V C γ
  | .done b, f => f b
  | .read k g, f => .read k fun v => (g v).bind f
  | .write k v s, f => .write k v (s.bind f)
  | .spawn c s, f => .spawn c (s.bind f)

@[simp] theorem done_bind (b : β) (f : β → Script K V C γ) : (done b).bind f = f b := rfl
@[simp] theorem read_bind (k : K) (g : Option V → Script K V C β) (f : β → Script K V C γ) :
    (read k g).bind f = .read k fun v => (g v).bind f := rfl
@[simp] theorem write_bind (k : K) (v : V) (s : Script K V C β) (f : β → Script K V C γ) :
    (write k v s).bind f = .write k v (s.bind f) := rfl
@[simp] theorem spawn_bind (c : C) (s : Script K V C β) (f : β → Script K V C γ) :
    (spawn c s).bind f = .spawn c (s.bind f) := rfl

end Script

/-- The script of a program. -/
def resolve : Prog K V C E α → Core C E → Script K V C (α × Core C E)
  | .ret a, c => .done (a, c)
  | .ask (.get k) f, c =>
    match c.env.fault c.ios with
    | some e => resolve (f (.error e)) c.io
    | none => .read k fun v => resolve (f (.ok v)) c.io
  | .ask (.put k v) f, c =>
    match c.env.fault c.ios with
    | some e => resolve (f (.error e)) c.io
    | none => .write k v (resolve (f (.ok ())) c.io)
  | .ask .now f, c => resolve (f (c.env.clock c.ticks)) c.tick
  | .ask .newId f, c => resolve (f c.env.id) c
  | .ask (.semaphore _) f, c => resolve (f ()) c
  | .ask .acquire f, c => resolve (f ()) c
  | .ask (.spawn x) f, c => .spawn x (resolve (f c.calls.length) (c.call x))
  | .ask (.join h) f, c => resolve (f (c.joined h)) c

theorem resolve_bind (f : α → Prog K V C E β) (p : Prog K V C E α) (c : Core C E) :
    resolve (p >>= f) c = (resolve p c).bind fun r => resolve (f r.1) r.2 := by
  induction p generalizing c with
  | ret a => rfl
  | ask o k ih =>
    cases o with
    | get key =>
      simp only [Prog.ask_bind, resolve]
      split
      · exact ih _ _
      · simp only [Script.read_bind, ih]
    | put key v =>
      simp only [Prog.ask_bind, resolve]
      split
      · exact ih _ _
      · simp only [Script.write_bind, ih]
    | spawn x => simp only [Prog.ask_bind, resolve, Script.spawn_bind, ih]
    | _ => exact ih _ _

/-! ## Scripts of fallible handlers -/

/-- The script of a fallible handler. -/
def script (x : Fallible K V C E α) (c : Core C E) : Script K V C (Except E α × Core C E) := resolve x.run c

namespace Script

/-- Go on after a success; an error ends the script. -/
def andThen (s : Script K V C (Except E α × Core C E)) (f : α → Core C E → Script K V C (Except E β × Core C E)) :
    Script K V C (Except E β × Core C E) :=
  s.bind fun r => match r.1 with
    | .ok a => f a r.2
    | .error e => .done (.error e, r.2)

@[simp] theorem done_ok_andThen (a : α) (c : Core C E) (f : α → Core C E → Script K V C (Except E β × Core C E)) :
    (done (.ok a, c)).andThen f = f a c := rfl
@[simp] theorem done_error_andThen (e : E) (c : Core C E) (f : α → Core C E → Script K V C (Except E β × Core C E)) :
    (done (.error e, c)).andThen f = .done (.error e, c) := rfl
@[simp] theorem read_andThen (k : K) (g : Option V → Script K V C (Except E α × Core C E))
    (f : α → Core C E → Script K V C (Except E β × Core C E)) :
    (read k g).andThen f = .read k fun v => (g v).andThen f := rfl
@[simp] theorem write_andThen (k : K) (v : V) (s : Script K V C (Except E α × Core C E))
    (f : α → Core C E → Script K V C (Except E β × Core C E)) :
    (write k v s).andThen f = .write k v (s.andThen f) := rfl
@[simp] theorem spawn_andThen (x : C) (s : Script K V C (Except E α × Core C E))
    (f : α → Core C E → Script K V C (Except E β × Core C E)) : (spawn x s).andThen f = .spawn x (s.andThen f) := rfl

/-- A get, or the error it fails with. -/
def tryRead (c : Core C E) (k : K) (f : Option V → Core C E → Script K V C (Except E α × Core C E)) :
    Script K V C (Except E α × Core C E) :=
  match c.env.fault c.ios with
  | some e => .done (.error e, c.io)
  | none => .read k fun v => f v c.io

/-- A put, or the error it fails with. -/
def tryWrite (c : Core C E) (k : K) (v : V) (f : Core C E → Script K V C (Except E α × Core C E)) :
    Script K V C (Except E α × Core C E) :=
  match c.env.fault c.ios with
  | some e => .done (.error e, c.io)
  | none => .write k v (f c.io)

/-- Spawn the calls `xs` in order. -/
def spawnAll (xs : List C) (s : Script K V C β) : Script K V C β := xs.foldr .spawn s

@[simp] theorem tryRead_andThen (c : Core C E) (k : K) (g : Option V → Core C E → Script K V C (Except E α × Core C E))
    (f : α → Core C E → Script K V C (Except E β × Core C E)) :
    (tryRead c k g).andThen f = .tryRead c k fun v c' => (g v c').andThen f := by
  unfold tryRead
  split <;> rfl

@[simp] theorem tryWrite_andThen (c : Core C E) (k : K) (v : V)
    (g : Core C E → Script K V C (Except E α × Core C E)) (f : α → Core C E → Script K V C (Except E β × Core C E)) :
    (tryWrite c k v g).andThen f = .tryWrite c k v fun c' => (g c').andThen f := by
  unfold tryWrite
  split <;> rfl

@[simp] theorem spawnAll_nil (s : Script K V C β) : spawnAll [] s = s := rfl
@[simp] theorem spawnAll_cons (x : C) (xs : List C) (s : Script K V C β) :
    spawnAll (x :: xs) s = .spawn x (spawnAll xs s) := rfl

@[simp] theorem spawnAll_andThen (xs : List C) (s : Script K V C (Except E α × Core C E))
    (f : α → Core C E → Script K V C (Except E β × Core C E)) :
    (spawnAll xs s).andThen f = spawnAll xs (s.andThen f) := by
  induction xs with
  | nil => rfl
  | cons x xs ih => rw [spawnAll_cons, spawn_andThen, ih, spawnAll_cons]

end Script

section Fallible

variable (c : Core C E)

@[simp] theorem script_pure (a : α) : script (pure a : Fallible K V C E α) c = .done (.ok a, c) := rfl

@[simp] theorem script_bind (x : Fallible K V C E α) (f : α → Fallible K V C E β) :
    script (x >>= f) c = (script x c).andThen fun a c' => script (f a) c' := by
  unfold script
  rw [ExceptT.run_bind, resolve_bind]
  unfold Script.andThen
  congr 1
  funext r
  cases r.1 <;> rfl

@[simp] theorem script_map (f : α → β) (x : Fallible K V C E α) :
    script (f <$> x) c = (script x c).andThen fun a c' => .done (.ok (f a), c') := by
  rw [← bind_pure_comp, script_bind]
  rfl

@[simp] theorem script_throw (e : E) : script (throw e : Fallible K V C E α) c = .done (.error e, c) := rfl

@[simp] theorem script_get (k : K) :
    script (Fallible.get k : Fallible K V C E (Option V)) c = .tryRead c k fun v c' => .done (.ok v, c') := by
  simp only [script, Fallible.get, Prog.perform, ExceptT.run_mk, resolve, Script.tryRead]

@[simp] theorem script_put (k : K) (v : V) :
    script (Fallible.put k v : Fallible K V C E Unit) c = .tryWrite c k v fun c' => .done (.ok (), c') := by
  simp only [script, Fallible.put, Prog.perform, ExceptT.run_mk, resolve, Script.tryWrite]

@[simp] theorem script_now :
    script (Fallible.now : Fallible K V C E Int) c = .done (.ok (c.env.clock c.ticks), c.tick) := rfl
@[simp] theorem script_newId : script (Fallible.newId : Fallible K V C E String) c = .done (.ok c.env.id, c) := rfl
@[simp] theorem script_semaphore (n : Nat) :
    script (Fallible.semaphore n : Fallible K V C E Unit) c = .done (.ok (), c) := rfl
@[simp] theorem script_acquire : script (Fallible.acquire : Fallible K V C E Unit) c = .done (.ok (), c) := rfl
@[simp] theorem script_spawn (x : C) :
    script (Fallible.spawn x : Fallible K V C E Nat) c = .spawn x (.done (.ok c.calls.length, c.call x)) := rfl
@[simp] theorem script_join (h : Nat) :
    script (Fallible.join h : Fallible K V C E (Option Bool)) c = .done (.ok (c.joined h), c) := rfl

end Fallible

/-! ## What a turn can do -/

/-- What a handler still has to do. -/
def Proc.todo (p : Proc K V C E α) : Script K V C (α × Core C E) := resolve p.prog p.loc.core

/-- The effect of a background attempt: it leaves the script alone. -/
structure TaskStep (p : Proc K V C E α) (j : Nat) (p' : Proc K V C E α) (e : Event K V C) : Prop where
  todo : p'.todo = p.todo
  task : ∃ t t', p.loc.tasks[j]? = some t ∧ t.finished = false ∧ p'.loc.tasks = p.loc.tasks.set j t' ∧
    t'.call = t.call ∧
    ((e = .post t.call false) ∨ (e = .post t.call true ∧ t'.finished = true) ∨ e = .panic t.call)

theorem map_call_set {l : List (Task C)} {j : Nat} {t t' : Task C} (h : l[j]? = some t) (hc : t'.call = t.call) :
    (l.set j t').map Task.call = l.map Task.call := by
  obtain ⟨hj, rfl⟩ := List.getElem?_eq_some_iff.mp h
  rw [List.map_set, hc, ← List.getElem_map Task.call (h := by simpa using hj), List.set_getElem_self]

/-- **All that a background attempt can do.** -/
theorem task_steps {p p' : Proc K V C E α} {j : Nat} {e : Event K V C} (h : p.task j = some (p', e)) :
    TaskStep p j p' e := by
  obtain ⟨l', hb, rfl⟩ := Proc.background_of_task h
  obtain ⟨t, ht, hf, hl⟩ := background_cases hb
  have hcore (b : Nat) (t' : Task C) (hc : t'.call = t.call) :
      (⟨p.prog, { p.loc with permits := b, tasks := p.loc.tasks.set j t' }⟩ : Proc K V C E α).todo = p.todo := by
    simp only [Proc.todo, Local.core, map_call_set ht hc]
  rcases hl with ⟨-, rfl, rfl⟩ | ⟨-, he, rfl⟩
  · exact ⟨hcore _ _ rfl, t, _, ht, hf, rfl, rfl, .inl rfl⟩
  · refine ⟨hcore _ _ rfl, t, _, ht, hf, rfl, rfl, ?_⟩
    rcases he with rfl | rfl | rfl
    · exact .inr (.inl ⟨rfl, rfl⟩)
    · exact .inl rfl
    · exact .inr (.inr rfl)

/-- What a turn shows of the script; the rest of its events is internal. -/
def Event.visible : Event K V C → Bool
  | .get _ _ => true
  | .put _ _ => true
  | .spawn _ => true
  | _ => false

/-- The visible part of a list of events. -/
def visibles (es : List (Event K V C)) : List (Event K V C) := es.filter Event.visible

theorem TaskStep.invisible {p p' : Proc K V C E α} {j : Nat} {e : Event K V C} (h : TaskStep p j p' e) :
    visibles [e] = [] := by
  obtain ⟨-, t, t', -, -, -, -, rfl | ⟨rfl, -⟩ | rfl⟩ := h <;> rfl

variable [DecidableEq K]

/-- The effect of a turn of a handler on the store and on its script. -/
inductive MainStep (st : Store K V) (p : Proc K V C E α) : Store K V → Proc K V C E α → Event K V C → Prop
  | silent {p' : Proc K V C E α} {e : Event K V C} (todo : p'.todo = p.todo) (tasks : p'.loc.tasks = p.loc.tasks)
      (event : e = .tau ∨ e = .fault) : MainStep st p st p' e
  | read {p' : Proc K V C E α} {k : K} {f : Option V → Script K V C (α × Core C E)} (before : p.todo = .read k f)
      (after : p'.todo = f (st.lookup k)) (tasks : p'.loc.tasks = p.loc.tasks) :
      MainStep st p st p' (.get k (st.lookup k))
  | write {p' : Proc K V C E α} {k : K} {v : V} (before : p.todo = .write k v p'.todo)
      (tasks : p'.loc.tasks = p.loc.tasks) : MainStep st p (st.insert k v) p' (.put k v)
  | spawn {p' : Proc K V C E α} {c : C} (before : p.todo = .spawn c p'.todo)
      (tasks : p'.loc.tasks = p.loc.tasks ++ [⟨c, 0, false⟩]) : MainStep st p st p' (.spawn c)

/-- **All that a turn of a handler can do.** -/
theorem main_steps {st st' : Store K V} {p p' : Proc K V C E α} {e : Event K V C} (h : p.main st = some (st', p', e)) :
    MainStep st p st' p' e := by
  obtain ⟨prog, loc⟩ := p
  cases prog with
  | ret a => simp [Proc.main] at h
  | ask o k =>
    obtain ⟨r, l, hp, rfl⟩ := Proc.main_ask h
    cases o with
    | get key =>
      simp only [perform] at hp
      split at hp
      · rename_i err hf
        simp only [Option.some.injEq, Prod.mk.injEq] at hp
        obtain ⟨rfl, rfl, rfl, rfl⟩ := hp
        exact .silent (by simp [Proc.todo, resolve, Local.core, Core.io, hf]) rfl (.inr rfl)
      · rename_i hf
        simp only [Option.some.injEq, Prod.mk.injEq] at hp
        obtain ⟨rfl, rfl, rfl, rfl⟩ := hp
        exact .read (f := fun v => resolve (k (.ok v)) loc.core.io)
          (by simp [Proc.todo, resolve, Local.core, hf]) rfl rfl
    | put key v =>
      simp only [perform] at hp
      split at hp
      · rename_i err hf
        simp only [Option.some.injEq, Prod.mk.injEq] at hp
        obtain ⟨rfl, rfl, rfl, rfl⟩ := hp
        exact .silent (by simp [Proc.todo, resolve, Local.core, Core.io, hf]) rfl (.inr rfl)
      · rename_i hf
        simp only [Option.some.injEq, Prod.mk.injEq] at hp
        obtain ⟨rfl, rfl, rfl, rfl⟩ := hp
        exact .write (by simp [Proc.todo, resolve, Local.core, Core.io, hf]) rfl
    | now =>
      simp only [perform, Option.some.injEq, Prod.mk.injEq] at hp
      obtain ⟨rfl, rfl, rfl, rfl⟩ := hp
      exact .silent rfl rfl (.inl rfl)
    | newId =>
      simp only [perform, Option.some.injEq, Prod.mk.injEq] at hp
      obtain ⟨rfl, rfl, rfl, rfl⟩ := hp
      exact .silent rfl rfl (.inl rfl)
    | semaphore n =>
      simp only [perform] at hp
      split at hp
      · simp only [Option.some.injEq, Prod.mk.injEq] at hp
        obtain ⟨-, rfl, rfl, rfl⟩ := hp
        exact .silent rfl rfl (.inl rfl)
      · cases hp
    | acquire =>
      simp only [perform] at hp
      split at hp
      · cases hp
      · simp only [Option.some.injEq, Prod.mk.injEq] at hp
        obtain ⟨-, rfl, rfl, rfl⟩ := hp
        exact .silent rfl rfl (.inl rfl)
    | spawn c =>
      simp only [perform, Option.some.injEq, Prod.mk.injEq] at hp
      obtain ⟨rfl, rfl, rfl, rfl⟩ := hp
      exact .spawn (by simp [Proc.todo, resolve, Local.core, Core.call]) rfl
    | join h =>
      simp only [perform] at hp
      split at hp
      · rename_i t ht
        split at hp
        · simp only [Option.some.injEq, Prod.mk.injEq] at hp
          obtain ⟨rfl, rfl, rfl, rfl⟩ := hp
          exact .silent (by simp [Proc.todo, resolve, Local.core, Core.joined, ht]) rfl (.inl rfl)
        · cases hp
      · cases hp

theorem step_main {s s' : Pool K V C E α} {i : Nat} {e : Event K V C} (h : s.step (.main i) = some (s', e)) :
    ∃ p p', s.procs[i]? = some p ∧ MainStep s.store p s'.store p' e ∧ s'.procs = s.procs.set i p' := by
  obtain ⟨p, p', hp, hm, hps⟩ := Pool.main_of_step h
  exact ⟨p, p', hp, main_steps hm, hps⟩

theorem step_task {s s' : Pool K V C E α} {i j : Nat} {e : Event K V C} (h : s.step (.task i j) = some (s', e)) :
    ∃ p p', s.procs[i]? = some p ∧ TaskStep p j p' e ∧ s'.store = s.store ∧ s'.procs = s.procs.set i p' := by
  obtain ⟨p, p', hp, ht, hst, hps⟩ := Pool.task_of_step h
  exact ⟨p, p', hp, task_steps ht, hst, hps⟩

/-! ## A handler alone -/

namespace Script

/-- The script run alone on a store: its events, its result and the store it leaves. -/
def exec : Script K V C β → Store K V → List (Event K V C) × β × Store K V
  | .done b, st => ([], b, st)
  | .read k f, st => let r := (f (st.lookup k)).exec st; (.get k (st.lookup k) :: r.1, r.2)
  | .write k v s, st => let r := s.exec (st.insert k v); (.put k v :: r.1, r.2)
  | .spawn c s, st => let r := s.exec st; (.spawn c :: r.1, r.2)

@[simp] theorem exec_done (b : β) (st : Store K V) : (done b : Script K V C β).exec st = ([], b, st) := rfl
@[simp] theorem exec_read (k : K) (f : Option V → Script K V C β) (st : Store K V) :
    (read k f).exec st =
      (.get k (st.lookup k) :: ((f (st.lookup k)).exec st).1, ((f (st.lookup k)).exec st).2) := rfl
@[simp] theorem exec_write (k : K) (v : V) (s : Script K V C β) (st : Store K V) :
    (write k v s).exec st = (.put k v :: (s.exec (st.insert k v)).1, (s.exec (st.insert k v)).2) := rfl
@[simp] theorem exec_spawn (c : C) (s : Script K V C β) (st : Store K V) :
    (spawn c s).exec st = (.spawn c :: (s.exec st).1, (s.exec st).2) := rfl

@[simp] theorem exec_spawnAll (cs : List C) (s : Script K V C β) (st : Store K V) :
    (spawnAll cs s).exec st = (cs.map .spawn ++ (s.exec st).1, (s.exec st).2) := by
  induction cs with
  | nil => rfl
  | cons c cs ih => rw [spawnAll_cons, exec_spawn, ih]; rfl

theorem exec_bind (f : β → Script K V C γ) : ∀ (s : Script K V C β) (st : Store K V), (s.bind f).exec st =
    ((s.exec st).1 ++ ((f (s.exec st).2.1).exec (s.exec st).2.2).1, ((f (s.exec st).2.1).exec (s.exec st).2.2).2)
  | .done _, _ => rfl
  | .read k g, st => by rw [read_bind, exec_read, exec_read, exec_bind f (g _) st]; rfl
  | .write k v s, st => by rw [write_bind, exec_write, exec_write, exec_bind f s _]; rfl
  | .spawn c s, st => by rw [spawn_bind, exec_spawn, exec_spawn, exec_bind f s st]; rfl

section Reliable

variable {c : Core C E} (hc : c.env.Reliable) (st : Store K V)
include hc

omit [DecidableEq K] in
theorem tryRead_reliable (k : K) (f : Option V → Core C E → Script K V C (Except E α × Core C E)) :
    tryRead c k f = .read k fun v => f v c.io := by rw [tryRead, hc c.ios]

omit [DecidableEq K] in
theorem tryWrite_reliable (k : K) (v : V) (f : Core C E → Script K V C (Except E α × Core C E)) :
    tryWrite c k v f = .write k v (f c.io) := by rw [tryWrite, hc c.ios]

theorem exec_tryRead (k : K) (f : Option V → Core C E → Script K V C (Except E α × Core C E)) :
    (tryRead c k f).exec st = (.get k (st.lookup k) :: ((f (st.lookup k) c.io).exec st).1,
      ((f (st.lookup k) c.io).exec st).2) := by
  rw [tryRead_reliable hc]
  rfl

theorem exec_tryWrite (k : K) (v : V) (f : Core C E → Script K V C (Except E α × Core C E)) :
    (tryWrite c k v f).exec st = (.put k v :: ((f c.io).exec (st.insert k v)).1,
      ((f c.io).exec (st.insert k v)).2) := by
  rw [tryWrite_reliable hc]
  rfl

end Reliable

end Script

/-- A turn of a handler consumes the head of its lone run. -/
theorem MainStep.exec {st st' : Store K V} {p p' : Proc K V C E α} {e : Event K V C} (h : MainStep st p st' p' e) :
    p.todo.exec st = (visibles [e] ++ (p'.todo.exec st').1, (p'.todo.exec st').2) := by
  cases h with
  | silent todo _ event => rcases event with rfl | rfl <;> rw [todo] <;> rfl
  | read before after _ => rw [before, Script.exec_read, after]; rfl
  | write before _ => rw [before]; rfl
  | spawn before _ => rw [before]; rfl

/-- **A handler alone in the pool** has done, at any time, an initial part of its script. -/
theorem run_alone {st : Store K V} {p : Prog K V C E α} {e : Env C E} {tr : Trace K V C} {s : Pool K V C E α}
    (h : Run (Pool.init st [(p, e)]) tr s) :
    ∃ q, s.procs = [q] ∧ (resolve p (.init e)).exec st =
      (visibles (tr.map Prod.snd) ++ (q.todo.exec s.store).1, (q.todo.exec s.store).2) := by
  induction h with
  | nil => exact ⟨_, rfl, rfl⟩
  | @snoc tr s s' t ev _ hs ih =>
    obtain ⟨q, hq, hx⟩ := ih
    have hv : visibles ((tr ++ [(t, ev)]).map Prod.snd) = visibles (tr.map Prod.snd) ++ visibles [ev] := by
      simp [visibles, List.filter_append]
    cases t with
    | main i =>
      obtain ⟨q₀, q', h₀, hm, hps⟩ := step_main hs
      obtain ⟨rfl, rfl⟩ : i = 0 ∧ q = q₀ := by
        rw [hq] at h₀
        cases i <;> simp_all
      exact ⟨q', by rw [hps, hq]; rfl, by rw [hx, hv, hm.exec, List.append_assoc]⟩
    | task i j =>
      obtain ⟨q₀, q', h₀, hm, hst, hps⟩ := step_task hs
      obtain ⟨rfl, rfl⟩ : i = 0 ∧ q = q₀ := by
        rw [hq] at h₀
        cases i <;> simp_all
      exact ⟨q', by rw [hps, hq]; rfl, by rw [hx, hv, hm.invisible, hst, hm.todo, List.append_nil]⟩

end Async
