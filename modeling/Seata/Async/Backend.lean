import Seata.Async.Completion
import Seata.Async.Linear

/-!
# Storage calls made of statements

A backend performs a get or a put of the store by statements of its own (`Backend`), and while one handler is between
two of them the others go on. A handler may also stop waiting for an answer: it goes on with an error, and the statement
that it has sent may take place at any later time, or never.

- `Code.Reads`, `Code.Writes`: what a backend owes — a get changes nothing and answers what its last statement finds, a
  put has its whole effect with one statement and ends right after it, perhaps with an error all the same, and it
  reports no success without it;
- `Prog.FailsFast`: the handler returns at the first put that fails;
- `Backend.Pool.moves`: the run of a given list of moves, for evaluation;
- `Backend.Run.simulates`: **every run over a backend is a run over the atomic store** in which some storage calls fail
  and some handlers are cut off: it has the same store, posts the same calls, and every handler that has succeeded has
  succeeded with the same result.
-/

namespace Async

open Linear (Code Semantics)

variable {K V C E α β : Type}

/-! ## Backends -/

section Calls

variable [DecidableEq K] {S : Type} {A : S → Type} (sem : Semantics A (Store K V))

/-- The call changes nothing, and answers what its last statement finds under the key. -/
def Reads (k : K) : Code S A (Except E (Option V)) → Prop
  | .ret r => ∃ e, r = .error e
  | .ask s f => ∀ st, (sem s st).2 = st ∧
      (f (sem s st).1 = .ret (.ok (st.lookup k)) ∨ Reads k (f (sem s st).1))

/-- The call changes nothing until one statement puts the value; then it ends, and only then it can succeed. -/
def Writes (k : K) (v : V) : Code S A (Except E Unit) → Prop
  | .ret r => ∃ e, r = .error e
  | .ask s f => ∀ st, ((sem s st).2 = st.insert k v ∧ ∃ r, f (sem s st).1 = .ret r) ∨
      ((sem s st).2 = st ∧ Writes k v (f (sem s st).1))

end Calls

/-- Gets and puts by statements on the store. -/
structure Backend (K V E : Type) [DecidableEq K] where
  Stm : Type
  Ans : Stm → Type
  sem : Semantics Ans (Store K V)
  get : K → Code Stm Ans (Except E (Option V))
  put : K → V → Code Stm Ans (Except E Unit)
  reads : ∀ k, Reads sem k (get k)
  writes : ∀ k v, Writes sem k v (put k v)

/-- A get or a put. -/
def Op.stored : Op K V C → Bool
  | .get _ => true
  | .put _ _ => true
  | _ => false

/-- One more storage call. -/
def Local.io (l : Local C E) : Local C E := { l with ios := l.ios + 1 }

/-- What a turn over a backend shows. -/
inductive Effect (K V C E : Type) where
  | statement
  | event (e : Event K V C)
  | failed (e : E)
  | late (k : K) (v : V)
  deriving DecidableEq

namespace Effect

/-- What it is over the atomic store. -/
def event? : Effect K V C E → Option (Event K V C)
  | .statement => none
  | .event e => some e
  | .failed _ => some .fault
  | .late k v => some (.put k v)

/-- The outcome of a storage call over the atomic store: it works, or fails with an error. -/
def outcome? : Effect K V C E → Option (Option E)
  | .event (.get _ _) => some none
  | .event (.put _ _) => some none
  | .failed e => some (some e)
  | .late _ _ => some none
  | _ => none

end Effect

namespace Backend

variable [DecidableEq K]

/-- Where a handler is: in its program, or in a storage call. -/
inductive Stage (B : Backend K V E) (C α : Type) where
  | running (p : Prog K V C E α)
  | reading (k : K) (c : Code B.Stm B.Ans (Except E (Option V))) (f : Except E (Option V) → Prog K V C E α)
  | writing (k : K) (v : V) (c : Code B.Stm B.Ans (Except E Unit)) (f : Except E Unit → Prog K V C E α)

/-- A put whose next statement was sent, and whose handler does not wait for the answer. -/
structure Late (B : Backend K V E) where
  k : K
  v : V
  c : Code B.Stm B.Ans (Except E Unit)

structure Proc (B : Backend K V E) (C α : Type) where
  stage : B.Stage C α
  loc : Local C E
  late : List B.Late

/-- The result of a handler that has returned. -/
def Proc.result {B : Backend K V E} (q : B.Proc C α) : Option α :=
  match q.stage with
  | .running (.ret a) => some a
  | _ => none

/-- The store and the handlers over it. -/
structure Pool (B : Backend K V E) (C α : Type) where
  store : Store K V
  procs : List (B.Proc C α)

def Pool.init (B : Backend K V E) (st : Store K V) (ps : List (Prog K V C E α × Env C E)) : B.Pool C α :=
  ⟨st, ps.map fun p => ⟨.running p.1, .init p.2, []⟩⟩

variable {B : Backend K V E}

/-- A turn of a handler: an operation of its own, or a statement of its storage call. -/
inductive Main : Store K V → B.Proc C α → Store K V → B.Proc C α → Effect K V C E → Prop
  | other {st st' : Store K V} {o : Op K V C} {f : o.Reply E → Prog K V C E α} {l l' : Local C E} {r : o.Reply E}
      {e : Event K V C} {z : List B.Late} (notStored : o.stored = false)
      (performed : perform st l o = some (r, st', l', e)) :
      Main st ⟨.running (.ask o f), l, z⟩ st' ⟨.running (f r), l', z⟩ (.event e)
  | get {st : Store K V} {k : K} {f : Except E (Option V) → Prog K V C E α} {l : Local C E} {z : List B.Late} :
      Main st ⟨.running (.ask (.get k) f), l, z⟩ st ⟨.reading k (B.get k) f, l, z⟩ .statement
  | put {st : Store K V} {k : K} {v : V} {f : Except E Unit → Prog K V C E α} {l : Local C E} {z : List B.Late} :
      Main st ⟨.running (.ask (.put k v) f), l, z⟩ st ⟨.writing k v (B.put k v) f, l, z⟩ .statement
  | readOn {st : Store K V} {k : K} {s : B.Stm} {c : B.Ans s → Code B.Stm B.Ans (Except E (Option V))}
      {f : Except E (Option V) → Prog K V C E α} {l : Local C E} {z : List B.Late}
      (on : (c (B.sem s st).1).result = none) :
      Main st ⟨.reading k (.ask s c) f, l, z⟩ (B.sem s st).2 ⟨.reading k (c (B.sem s st).1) f, l, z⟩ .statement
  | readDone {st : Store K V} {k : K} {s : B.Stm} {c : B.Ans s → Code B.Stm B.Ans (Except E (Option V))}
      {f : Except E (Option V) → Prog K V C E α} {l : Local C E} {z : List B.Late} {v : Option V}
      (done : c (B.sem s st).1 = .ret (.ok v)) :
      Main st ⟨.reading k (.ask s c) f, l, z⟩ (B.sem s st).2 ⟨.running (f (.ok v)), l.io, z⟩ (.event (.get k v))
  | readFail {st : Store K V} {k : K} {s : B.Stm} {c : B.Ans s → Code B.Stm B.Ans (Except E (Option V))}
      {f : Except E (Option V) → Prog K V C E α} {l : Local C E} {z : List B.Late} {e : E}
      (done : c (B.sem s st).1 = .ret (.error e)) :
      Main st ⟨.reading k (.ask s c) f, l, z⟩ (B.sem s st).2 ⟨.running (f (.error e)), l.io, z⟩ (.failed e)
  | readLost {st : Store K V} {k : K} {c : Code B.Stm B.Ans (Except E (Option V))}
      {f : Except E (Option V) → Prog K V C E α} {l : Local C E} {z : List B.Late} (e : E) :
      Main st ⟨.reading k c f, l, z⟩ st ⟨.running (f (.error e)), l.io, z⟩ (.failed e)
  | writeOn {st : Store K V} {k : K} {v : V} {s : B.Stm} {c : B.Ans s → Code B.Stm B.Ans (Except E Unit)}
      {f : Except E Unit → Prog K V C E α} {l : Local C E} {z : List B.Late}
      (on : (c (B.sem s st).1).result = none) :
      Main st ⟨.writing k v (.ask s c) f, l, z⟩ (B.sem s st).2 ⟨.writing k v (c (B.sem s st).1) f, l, z⟩ .statement
  | writeDone {st : Store K V} {k : K} {v : V} {s : B.Stm} {c : B.Ans s → Code B.Stm B.Ans (Except E Unit)}
      {f : Except E Unit → Prog K V C E α} {l : Local C E} {z : List B.Late}
      (done : c (B.sem s st).1 = .ret (.ok ())) :
      Main st ⟨.writing k v (.ask s c) f, l, z⟩ (B.sem s st).2 ⟨.running (f (.ok ())), l.io, z⟩ (.event (.put k v))
  | writeFail {st : Store K V} {k : K} {v : V} {s : B.Stm} {c : B.Ans s → Code B.Stm B.Ans (Except E Unit)}
      {f : Except E Unit → Prog K V C E α} {l : Local C E} {z : List B.Late} {e : E}
      (done : c (B.sem s st).1 = .ret (.error e)) (undone : (B.sem s st).2 = st) :
      Main st ⟨.writing k v (.ask s c) f, l, z⟩ (B.sem s st).2 ⟨.running (f (.error e)), l.io, z⟩ (.failed e)
  -- the handler gets an error for a put that has taken place
  | writeDenied {st : Store K V} {k : K} {v : V} {s : B.Stm} {c : B.Ans s → Code B.Stm B.Ans (Except E Unit)}
      {f : Except E Unit → Prog K V C E α} {l : Local C E} {z : List B.Late} {e : E}
      (done : c (B.sem s st).1 = .ret (.error e)) (put : (B.sem s st).2 = st.insert k v) :
      Main st ⟨.writing k v (.ask s c) f, l, z⟩ (B.sem s st).2 ⟨.running (f (.error e)), l.io, z⟩ (.late k v)
  -- the handler does not wait any longer, and its statement is under way
  | abandon {st : Store K V} {k : K} {v : V} {c : Code B.Stm B.Ans (Except E Unit)}
      {f : Except E Unit → Prog K V C E α} {l : Local C E} {z : List B.Late} (e : E) :
      Main st ⟨.writing k v c f, l, z⟩ st ⟨.running (f (.error e)), l, ⟨k, v, c⟩ :: z⟩ .statement
  | late {st : Store K V} {x : B.Stage C α} {l : Local C E} {z : List B.Late} {n : Nat} {k : K} {v : V} {s : B.Stm}
      {c : B.Ans s → Code B.Stm B.Ans (Except E Unit)} (sent : z[n]? = some ⟨k, v, .ask s c⟩)
      (put : (B.sem s st).2 = st.insert k v) :
      Main st ⟨x, l, z⟩ (B.sem s st).2 ⟨x, l.io, z.eraseIdx n⟩ (.late k v)
  | vain {st : Store K V} {x : B.Stage C α} {l : Local C E} {z : List B.Late} {n : Nat} {k : K} {v : V} {s : B.Stm}
      {c : B.Ans s → Code B.Stm B.Ans (Except E Unit)} (sent : z[n]? = some ⟨k, v, .ask s c⟩)
      (undone : (B.sem s st).2 = st) :
      Main st ⟨x, l, z⟩ (B.sem s st).2 ⟨x, l, z.eraseIdx n⟩ .statement

/-- A turn of the pool. -/
inductive Step : B.Pool C α → Turn → Effect K V C E → B.Pool C α → Prop
  | main {b : B.Pool C α} {i : Nat} {q q' : B.Proc C α} {st' : Store K V} {e : Effect K V C E}
      (here : b.procs[i]? = some q) (move : Main b.store q st' q' e) :
      Step b (.main i) e ⟨st', b.procs.set i q'⟩
  | task {b : B.Pool C α} {i j : Nat} {q : B.Proc C α} {l' : Local C E} {e : Event K V C}
      (here : b.procs[i]? = some q) (attempt : background q.loc j = some (l', e)) :
      Step b (.task i j) (.event e) ⟨b.store, b.procs.set i { q with loc := l' }⟩

/-- **Any interleaving** of the statements. -/
inductive Run (b₀ : B.Pool C α) : List (Turn × Effect K V C E) → B.Pool C α → Prop
  | nil : Run b₀ [] b₀
  | snoc {tr : List (Turn × Effect K V C E)} {b b' : B.Pool C α} {t : Turn} {e : Effect K V C E} :
      Run b₀ tr b → Step b t e b' → Run b₀ (tr ++ [(t, e)]) b'

/-! ### Running it -/

/-- What happens next: a handler goes on; it does not wait for its answer any longer; a statement of it is late; or a
task goes on. -/
inductive Move (E : Type) where
  | go (i : Nat)
  | leave (i : Nat) (e : E)
  | late (i n : Nat)
  | task (i j : Nat)

section Going

variable [DecidableEq V]

/-- What a put shows that has failed: nothing has changed, or it has taken place all the same. -/
def failed? (k : K) (v : V) (st st' : Store K V) (e : E) : Option (Effect K V C E) :=
  if st' = st then some (.failed e) else if st' = st.insert k v then some (.late k v) else none

/-- The handler goes on. -/
def Proc.go (st : Store K V) : B.Proc C α → Option (Store K V × B.Proc C α × Effect K V C E)
  | ⟨.running (.ret _), _, _⟩ => none
  | ⟨.running (.ask (.get k) f), l, z⟩ => some (st, ⟨.reading k (B.get k) f, l, z⟩, .statement)
  | ⟨.running (.ask (.put k v) f), l, z⟩ => some (st, ⟨.writing k v (B.put k v) f, l, z⟩, .statement)
  | ⟨.running (.ask o f), l, z⟩ =>
    if o.stored then none
    else (perform st l o).map fun r => (r.2.1, ⟨.running (f r.1), r.2.2.1, z⟩, .event r.2.2.2)
  | ⟨.reading _ (.ret _) _, _, _⟩ => none
  | ⟨.reading k (.ask s c) f, l, z⟩ =>
    match (c (B.sem s st).1).result with
    | some (.ok v) => some ((B.sem s st).2, ⟨.running (f (.ok v)), l.io, z⟩, .event (.get k v))
    | some (.error e) => some ((B.sem s st).2, ⟨.running (f (.error e)), l.io, z⟩, .failed e)
    | none => some ((B.sem s st).2, ⟨.reading k (c (B.sem s st).1) f, l, z⟩, .statement)
  | ⟨.writing _ _ (.ret _) _, _, _⟩ => none
  | ⟨.writing k v (.ask s c) f, l, z⟩ =>
    match (c (B.sem s st).1).result with
    | some (.ok ()) => some ((B.sem s st).2, ⟨.running (f (.ok ())), l.io, z⟩, .event (.put k v))
    | some (.error e) =>
      (failed? k v st (B.sem s st).2 e).map fun e' => ((B.sem s st).2, ⟨.running (f (.error e)), l.io, z⟩, e')
    | none => some ((B.sem s st).2, ⟨.writing k v (c (B.sem s st).1) f, l, z⟩, .statement)

/-- It does not wait for its answer any longer. -/
def Proc.leave (st : Store K V) (e : E) : B.Proc C α → Option (Store K V × B.Proc C α × Effect K V C E)
  | ⟨.running _, _, _⟩ => none
  | ⟨.reading _ _ f, l, z⟩ => some (st, ⟨.running (f (.error e)), l.io, z⟩, .failed e)
  | ⟨.writing k v c f, l, z⟩ => some (st, ⟨.running (f (.error e)), l, ⟨k, v, c⟩ :: z⟩, .statement)

/-- The statement of a put of it is late. -/
def Proc.arrive (st : Store K V) (q : B.Proc C α) (n : Nat) : Option (Store K V × B.Proc C α × Effect K V C E) :=
  match q.late[n]? with
  | some ⟨k, v, .ask s _⟩ =>
    if (B.sem s st).2 = st then some ((B.sem s st).2, ⟨q.stage, q.loc, q.late.eraseIdx n⟩, .statement)
    else if (B.sem s st).2 = st.insert k v then
      some ((B.sem s st).2, ⟨q.stage, q.loc.io, q.late.eraseIdx n⟩, .late k v)
    else none
  | _ => none

section Moves

variable {st st' : Store K V} {q q' : B.Proc C α} {e : Effect K V C E}

theorem main_of_go (h : q.go st = some (st', q', e)) : Main st q st' q' e := by
  unfold Proc.go at h
  split at h
  · cases h
  · cases h
    exact .get
  · cases h
    exact .put
  · split at h
    · cases h
    · rename_i ho
      simp only [Option.map_eq_some_iff, Prod.mk.injEq] at h
      obtain ⟨⟨r, st₁, l₁, e₁⟩, hr, rfl, rfl, rfl⟩ := h
      exact .other (by simpa using ho) hr
  · cases h
  · split at h <;> rename_i hc <;> cases h
    · exact .readDone (Code.eq_ret_of_result hc)
    · exact .readFail (Code.eq_ret_of_result hc)
    · exact .readOn hc
  · cases h
  · split at h <;> rename_i hc
    · cases h
      exact .writeDone (Code.eq_ret_of_result hc)
    · simp only [failed?, Option.map_eq_some_iff, Prod.mk.injEq] at h
      obtain ⟨e', he, rfl, rfl, rfl⟩ := h
      split at he
      · cases he
        exact .writeFail (Code.eq_ret_of_result hc) ‹_›
      · split at he <;> cases he
        exact .writeDenied (Code.eq_ret_of_result hc) ‹_›
    · cases h
      exact .writeOn hc

omit [DecidableEq V] in
theorem main_of_leave {x : E} (h : q.leave st x = some (st', q', e)) : Main st q st' q' e := by
  unfold Proc.leave at h
  split at h <;> cases h
  · exact .readLost x
  · exact .abandon x

theorem main_of_arrive {n : Nat} (h : q.arrive st n = some (st', q', e)) : Main st q st' q' e := by
  unfold Proc.arrive at h
  split at h
  · rename_i hz
    split at h
    · cases h
      exact .vain hz ‹_›
    · split at h <;> cases h
      exact .late hz ‹_›
  · cases h

end Moves

/-- The next turn of a run. -/
def Pool.move (b : B.Pool C α) : Move E → Option (Turn × Effect K V C E × B.Pool C α)
  | .go i => b.procs[i]?.bind fun q => (q.go b.store).map fun r => (.main i, r.2.2, ⟨r.1, b.procs.set i r.2.1⟩)
  | .leave i e => b.procs[i]?.bind fun q => (q.leave b.store e).map fun r =>
    (.main i, r.2.2, ⟨r.1, b.procs.set i r.2.1⟩)
  | .late i n => b.procs[i]?.bind fun q => (q.arrive b.store n).map fun r =>
    (.main i, r.2.2, ⟨r.1, b.procs.set i r.2.1⟩)
  | .task i j => b.procs[i]?.bind fun q => (background q.loc j).map fun r =>
    (.task i j, .event r.2, ⟨b.store, b.procs.set i { q with loc := r.1 }⟩)

theorem step_of_move {b b' : B.Pool C α} {m : Move E} {t : Turn} {e : Effect K V C E}
    (h : b.move m = some (t, e, b')) : Step b t e b' := by
  cases m <;> simp only [Pool.move, Option.bind_eq_some_iff, Option.map_eq_some_iff, Prod.mk.injEq] at h <;>
    obtain ⟨q, hq, r, hr, rfl, rfl, rfl⟩ := h
  case go i => exact .main hq (main_of_go hr)
  case leave i x => exact .main hq (main_of_leave hr)
  case late i n => exact .main hq (main_of_arrive hr)
  case task i j => exact .task hq hr

/-- The run of the given moves. -/
def Pool.moves (b : B.Pool C α) (tr : List (Turn × Effect K V C E)) :
    List (Move E) → Option (List (Turn × Effect K V C E) × B.Pool C α)
  | [] => some (tr, b)
  | m :: ms => (b.move m).bind fun r => r.2.2.moves (tr ++ [(r.1, r.2.1)]) ms

theorem run_of_moves {b₀ : B.Pool C α} : ∀ {ms : List (Move E)} {b b' : B.Pool C α}
    {tr tr' : List (Turn × Effect K V C E)}, Run b₀ tr b → b.moves tr ms = some (tr', b') → Run b₀ tr' b'
  | [], _, _, _, _, hr, h => by
    cases h
    exact hr
  | m :: ms, b, b', tr, tr', hr, h => by
    simp only [Pool.moves, Option.bind_eq_some_iff] at h
    obtain ⟨⟨t, e, b₁⟩, hm, hms⟩ := h
    exact run_of_moves (hr.snoc (step_of_move hm)) hms

/-- A run of given moves with a given property. -/
theorem exists_run_of_moves {b : B.Pool C α} (ms : List (Move E))
    {P : List (Turn × Effect K V C E) → B.Pool C α → Prop} [∀ tr b', Decidable (P tr b')]
    (h : (b.moves [] ms).any (fun x => decide (P x.1 x.2)) = true) : ∃ tr b', Run b tr b' ∧ P tr b' := by
  obtain ⟨⟨tr, b'⟩, hm, hP⟩ := (Option.any_eq_true _ _).mp h
  exact ⟨tr, b', run_of_moves .nil hm, of_decide_eq_true hP⟩

end Going

end Backend

/-! ## Handlers that fail fast -/

/-- A put that fails is the end, with an error. -/
def StopsAt : (o : Op K V C) → (o.Reply E → Prog K V C E (Except E α)) → Prop
  | .put _ _, f => ∀ e, ∃ e', f (.error e) = .ret (.error e')
  | _, _ => True

/-- Every put that fails ends the handler with an error. -/
def Prog.FailsFast : Prog K V C E (Except E α) → Prop
  | .ret _ => True
  | .ask o f => StopsAt o f ∧ ∀ r, (f r).FailsFast

/-- A handler goes on after a success, and an error stays. -/
theorem Prog.FailsFast.bind {g : Except E α → Prog K V C E (Except E β)} (hok : ∀ a, (g (.ok a)).FailsFast)
    (herror : ∀ e, g (.error e) = .ret (.error e)) :
    ∀ {p : Prog K V C E (Except E α)}, p.FailsFast → (p >>= g).FailsFast
  | .ret (.ok a), _ => hok a
  | .ret (.error e), _ => by
    rw [ret_bind, herror]
    trivial
  | .ask o f, h => by
    refine ⟨?_, fun r => FailsFast.bind hok herror (h.2 r)⟩
    cases o with
    | put k v =>
      intro e
      obtain ⟨e', he⟩ := h.1 e
      refine ⟨e', ?_⟩
      show f (.error e) >>= g = _
      rw [he, ret_bind, herror]
    | _ => trivial

namespace Fallible

def FailsFast (x : Fallible K V C E α) : Prop := x.run.FailsFast

theorem failsFast_bind {x : Fallible K V C E α} {f : α → Fallible K V C E β} (hx : FailsFast x)
    (hf : ∀ a, FailsFast (f a)) : FailsFast (x >>= f) :=
  Prog.FailsFast.bind (g := ExceptT.bindCont f) hf (fun _ => rfl) hx

theorem failsFast_pure (a : α) : FailsFast (pure a : Fallible K V C E α) := trivial
theorem failsFast_semaphore (n : Nat) : FailsFast (semaphore n : Fallible K V C E Unit) := ⟨trivial, fun _ => trivial⟩
theorem failsFast_acquire : FailsFast (acquire : Fallible K V C E Unit) := ⟨trivial, fun _ => trivial⟩
theorem failsFast_spawn (c : C) : FailsFast (spawn c : Fallible K V C E Nat) := ⟨trivial, fun _ => trivial⟩
theorem failsFast_join (h : Nat) : FailsFast (join h : Fallible K V C E (Option Bool)) := ⟨trivial, fun _ => trivial⟩

theorem closed_failsFast : Closed fun _ (x : Fallible K V C E _) => FailsFast x where
  pure := failsFast_pure
  throw _ := trivial
  get {_ k _} h := failsFast_bind (x := get k) ⟨trivial, fun _ => trivial⟩ h
  put {_ k v _} h := failsFast_bind (x := put k v) ⟨fun e => ⟨e, rfl⟩, fun _ => trivial⟩ fun _ => h
  now h := failsFast_bind (x := now) ⟨trivial, fun _ => trivial⟩ h
  newId h := failsFast_bind (x := newId) ⟨trivial, fun _ => trivial⟩ h
  map g h := failsFast_bind h fun a => failsFast_pure (g a)

end Fallible

/-! ## The simulation -/

/-- The same with other faults. -/
def Local.withFaults (l : Local C E) (F : Nat → Option E) : Local C E := { l with env := { l.env with fault := F } }

theorem background_withFaults (l : Local C E) (F : Nat → Option E) (j : Nat) :
    (background (l.withFaults F) j : Option (Local C E × Event K V C)) =
      (background l j).map fun r => (r.1.withFaults F, r.2) := by
  simp only [background, Local.withFaults]
  cases l.tasks[j]? with
  | none => rfl
  | some t =>
    dsimp only
    by_cases hf : t.finished = true
    · simp only [if_pos hf, Option.map_none]
    · by_cases hlt : t.posted < (l.env.call t.call).failures
      · simp [hf, hlt]
      · cases (l.env.call t.call).ending <;> simp [hf, hlt]

section Perform

variable [DecidableEq K] {st st' : Store K V} {l l' : Local C E}

theorem perform_withFaults (F : Nat → Option E) {o : Op K V C} (ho : o.stored = false) {r : o.Reply E}
    {e : Event K V C} (h : perform st l o = some (r, st', l', e)) :
    perform st (l.withFaults F) o = some (r, st', l'.withFaults F, e) := by
  cases o with
  | get k => cases ho
  | put k v => cases ho
  | semaphore n =>
    simp only [perform] at h
    split at h <;> cases h
    rename_i hn
    simp only [perform, Local.withFaults, hn, ↓reduceIte]
  | acquire =>
    simp only [perform] at h
    split at h <;> cases h
    rename_i hp
    simp only [perform, Local.withFaults, hp, ↓reduceIte]
  | join n =>
    simp only [perform] at h
    split at h
    · rename_i t ht
      split at h <;> cases h
      rename_i hf
      simp only [perform, Local.withFaults, ht, hf, ↓reduceIte]
    · cases h
  | _ =>
    cases h
    rfl

variable {F : Nat → Option E} {k : K} {v : V} {e : E}

theorem main_get {f : Except E (Option V) → Prog K V C E α} (hF : F l.ios = none) :
    Proc.main st ⟨.ask (.get k) f, l.withFaults F⟩ =
      some (st, ⟨f (.ok (st.lookup k)), l.io.withFaults F⟩, .get k (st.lookup k)) := by
  simp only [Proc.main, perform, Local.withFaults, hF, Option.map_some, Local.io]

theorem main_get_fault {f : Except E (Option V) → Prog K V C E α} (hF : F l.ios = some e) :
    Proc.main st ⟨.ask (.get k) f, l.withFaults F⟩ = some (st, ⟨f (.error e), l.io.withFaults F⟩, .fault) := by
  simp only [Proc.main, perform, Local.withFaults, hF, Option.map_some, Local.io]

theorem main_put {f : Except E Unit → Prog K V C E α} (hF : F l.ios = none) :
    Proc.main st ⟨.ask (.put k v) f, l.withFaults F⟩ =
      some (st.insert k v, ⟨f (.ok ()), l.io.withFaults F⟩, .put k v) := by
  simp only [Proc.main, perform, Local.withFaults, hF, Option.map_some, Local.io]

theorem main_put_fault {f : Except E Unit → Prog K V C E α} (hF : F l.ios = some e) :
    Proc.main st ⟨.ask (.put k v) f, l.withFaults F⟩ = some (st, ⟨f (.error e), l.io.withFaults F⟩, .fault) := by
  simp only [Proc.main, perform, Local.withFaults, hF, Option.map_some, Local.io]

end Perform

namespace Backend

variable [DecidableEq K] {B : Backend K V E}

/-- What a run shows over the atomic store. -/
def shown (tr : List (Turn × Effect K V C E)) : Trace K V C := tr.filterMap fun x => x.2.event?.map (x.1, ·)

/-- The outcomes of the storage calls of handler `i`, in order. -/
def outcomes (i : Nat) (tr : List (Turn × Effect K V C E)) : List (Option E) :=
  tr.filterMap fun x => if x.1 = .main i then x.2.outcome? else none

/-- The storage calls of handler `i` that fail in the run. -/
def faultsOf (tr : List (Turn × Effect K V C E)) (i n : Nat) : Option E := ((outcomes i tr)[n]?).join

/-- A handler over the backend and one over the atomic store: the same, in a storage call or not, or the first one has
failed and the second one is cut off. -/
inductive Matches (F : Nat → Option E) : B.Proc C (Except E α) → Async.Proc K V C E (Except E α) → Prop
  | running {p : Prog K V C E (Except E α)} {l : Local C E} (fast : p.FailsFast) :
      Matches F ⟨.running p, l, []⟩ ⟨p, l.withFaults F⟩
  | reading {k : K} {c : Code B.Stm B.Ans (Except E (Option V))}
      {f : Except E (Option V) → Prog K V C E (Except E α)} {l : Local C E} (reads : Reads B.sem k c)
      (fast : (Prog.ask (.get k) f).FailsFast) :
      Matches F ⟨.reading k c f, l, []⟩ ⟨.ask (.get k) f, l.withFaults F⟩
  | writing {k : K} {v : V} {c : Code B.Stm B.Ans (Except E Unit)} {f : Except E Unit → Prog K V C E (Except E α)}
      {l : Local C E} (writes : Writes B.sem k v c) (fast : (Prog.ask (.put k v) f).FailsFast) :
      Matches F ⟨.writing k v c f, l, []⟩ ⟨.ask (.put k v) f, l.withFaults F⟩
  | late {e : E} {k : K} {v : V} {c : Code B.Stm B.Ans (Except E Unit)}
      {f : Except E Unit → Prog K V C E (Except E α)} {l : Local C E} (writes : Writes B.sem k v c) :
      Matches F ⟨.running (.ret (.error e)), l, [⟨k, v, c⟩]⟩ ⟨.ask (.put k v) f, l.withFaults F⟩
  | cut {e : E} {p : Prog K V C E (Except E α)} {l : Local C E} :
      Matches F ⟨.running (.ret (.error e)), l, []⟩ ⟨p, l.withFaults F⟩

section Steps

variable {F : Nat → Option E} {st st' : Store K V} {q q' : B.Proc C (Except E α)}
  {p : Async.Proc K V C E (Except E α)} {e : Effect K V C E}

/-- A handler that has succeeded matches one that has succeeded. -/
theorem Matches.result {a : α} (hm : Matches F q p) (ha : q.result = some (.ok a)) : p.prog = .ret (.ok a) := by
  cases hm with
  | @running p l fast =>
    cases p with
    | ret r => rw [Option.some.inj ha]
    | ask o f => cases ha
  | reading reads fast => cases ha
  | writing writes fast => cases ha
  | late writes => cases ha
  | cut => cases ha

/-- What a turn over the backend is over the atomic store: nothing, or a turn with the same effect. -/
def Simulated (F : Nat → Option E) (p : Async.Proc K V C E (Except E α)) (st st' : Store K V)
    (q' : B.Proc C (Except E α)) (e : Effect K V C E) : Prop :=
  (e.event? = none ∧ st' = st ∧ Matches F q' p) ∨
    ∃ e' p', e.event? = some e' ∧ p.main st = some (st', p', e') ∧ Matches F q' p'

section Reading

variable {k : K} {s : B.Stm} {c : B.Ans s → Code B.Stm B.Ans (Except E (Option V))}

theorem reads_on (h : Reads B.sem k (.ask s c)) (on : (c (B.sem s st).1).result = none) :
    (B.sem s st).2 = st ∧ Reads B.sem k (c (B.sem s st).1) := by
  obtain ⟨hst, hdone | hreads⟩ := h st
  · rw [hdone] at on
    cases on
  · exact ⟨hst, hreads⟩

theorem reads_done (h : Reads B.sem k (.ask s c)) {v : Option V} (done : c (B.sem s st).1 = .ret (.ok v)) :
    (B.sem s st).2 = st ∧ v = st.lookup k := by
  obtain ⟨hst, hdone | hreads⟩ := h st
  · exact ⟨hst, Except.ok.inj (Code.ret.inj (done.symm.trans hdone))⟩
  · rw [done] at hreads
    obtain ⟨e, he⟩ := hreads
    cases he

end Reading

section Writing

variable {k : K} {v : V} {s : B.Stm} {c : B.Ans s → Code B.Stm B.Ans (Except E Unit)}

theorem writes_on (h : Writes B.sem k v (.ask s c)) (on : (c (B.sem s st).1).result = none) :
    (B.sem s st).2 = st ∧ Writes B.sem k v (c (B.sem s st).1) := by
  rcases h st with ⟨-, r, hdone⟩ | hwrites
  · rw [hdone] at on
    cases on
  · exact hwrites

theorem writes_done (h : Writes B.sem k v (.ask s c)) (done : c (B.sem s st).1 = .ret (.ok ())) :
    (B.sem s st).2 = st.insert k v := by
  rcases h st with ⟨hst, -⟩ | ⟨-, hwrites⟩
  · exact hst
  · rw [done] at hwrites
    obtain ⟨e, he⟩ := hwrites
    cases he

end Writing

theorem singleton_getElem? {x y : β} {n : Nat} (h : [x][n]? = some y) : n = 0 ∧ x = y := by
  rw [List.getElem?_singleton] at h
  split at h
  · exact ⟨‹_›, Option.some.inj h⟩
  · cases h

/-- **A turn over the backend** is no turn over the atomic store, or one with the same effect. -/
theorem Matches.main (hm : Matches F q p) (h : Main st q st' q' e)
    (hF : ∀ o, e.outcome? = some o → F q.loc.ios = o) : Simulated F p st st' q' e := by
  cases hm with
  | @running p l fast =>
    cases h with
    | other notStored performed =>
      refine .inr ⟨_, _, rfl, ?_, .running (fast.2 _)⟩
      simp only [Proc.main, perform_withFaults F notStored performed, Option.map_some]
    | get => exact .inl ⟨rfl, rfl, .reading (B.reads _) fast⟩
    | put => exact .inl ⟨rfl, rfl, .writing (B.writes _ _) fast⟩
    | late sent done => cases sent
    | vain sent undone => cases sent
  | @reading k c f l reads fast =>
    cases h with
    | readOn on =>
      obtain ⟨hst, hreads⟩ := reads_on reads on
      exact .inl ⟨rfl, hst, .reading hreads fast⟩
    | readDone done =>
      obtain ⟨hst, rfl⟩ := reads_done reads done
      rw [hst]
      exact .inr ⟨_, _, rfl, main_get (hF none rfl), .running (fast.2 _)⟩
    | readFail done =>
      rw [(reads st).1]
      exact .inr ⟨_, _, rfl, main_get_fault (hF _ rfl), .running (fast.2 _)⟩
    | readLost x => exact .inr ⟨_, _, rfl, main_get_fault (hF _ rfl), .running (fast.2 _)⟩
    | late sent done => cases sent
    | vain sent undone => cases sent
  | @writing k v c f l writes fast =>
    cases h with
    | writeOn on =>
      obtain ⟨hst, hwrites⟩ := writes_on writes on
      exact .inl ⟨rfl, hst, .writing hwrites fast⟩
    | writeDone done =>
      rw [writes_done writes done]
      exact .inr ⟨_, _, rfl, main_put (hF none rfl), .running (fast.2 _)⟩
    | writeFail done undone =>
      rw [undone]
      exact .inr ⟨_, _, rfl, main_put_fault (hF _ rfl), .running (fast.2 _)⟩
    | @writeDenied _ _ _ _ _ _ _ e done put =>
      -- the handler fails, and the one over the atomic store is cut off after its put
      obtain ⟨e', he⟩ := fast.1 e
      rw [put, he]
      exact .inr ⟨_, _, rfl, main_put (hF none rfl), .cut⟩
    | abandon x =>
      -- the handler fails here, and the one over the atomic store waits for the late statement
      obtain ⟨x', hx⟩ := fast.1 x
      rw [hx]
      exact .inl ⟨rfl, rfl, .late writes⟩
    | late sent done => cases sent
    | vain sent undone => cases sent
  | @late _ k v c f l writes =>
    cases h with
    | late sent put =>
      obtain ⟨rfl, hlate⟩ := singleton_getElem? sent
      cases hlate
      rw [put]
      exact .inr ⟨_, _, rfl, main_put (hF none rfl), .cut⟩
    | vain sent undone =>
      obtain ⟨rfl, hlate⟩ := singleton_getElem? sent
      cases hlate
      exact .inl ⟨rfl, undone, .cut⟩
  | cut =>
    cases h with
    | late sent done => cases sent
    | vain sent undone => cases sent

theorem perform_ios {C : Type} {st st' : Store K V} {l l' : Local C E} {o : Op K V C} (ho : o.stored = false)
    {r : o.Reply E} {e : Event K V C} (h : perform st l o = some (r, st', l', e)) :
    l'.ios = l.ios ∧ (Effect.event e : Effect K V C E).outcome? = none := by
  cases o with
  | get k => cases ho
  | put k v => cases ho
  | semaphore n | acquire =>
    simp only [perform] at h
    split at h <;> cases h
    exact ⟨rfl, rfl⟩
  | join n =>
    simp only [perform] at h
    split at h
    · split at h <;> cases h
      exact ⟨rfl, rfl⟩
    · cases h
  | _ =>
    cases h
    exact ⟨rfl, rfl⟩

/-- The storage calls that a handler has made are those with an outcome. -/
theorem Main.ios {q q' : B.Proc C α} (h : Main st q st' q' e) :
    q'.loc.ios = q.loc.ios + e.outcome?.toList.length := by
  cases h with
  | other notStored performed =>
    obtain ⟨hios, hnone⟩ := perform_ios notStored performed
    rw [hnone]
    exact hios
  | _ => rfl

omit [DecidableEq K] in
theorem ios_background {l l' : Local C E} {j : Nat} {e : Event K V C} (h : background l j = some (l', e)) :
    l'.ios = l.ios := by
  obtain ⟨_, -, -, ⟨-, -, rfl⟩ | ⟨-, -, rfl⟩⟩ := background_cases h
  · rfl
  · rfl

/-- An attempt of a task is the same over the atomic store. -/
theorem Matches.task (hm : Matches F q p) {j : Nat} {l' : Local C E} {e : Event K V C}
    (h : background q.loc j = some (l', e)) :
    ∃ p', p.task j = some (p', e) ∧ Matches F { q with loc := l' } p' := by
  have htask {x : Prog K V C E (Except E α)} {l : Local C E} (h : background l j = some (l', e)) :
      (⟨x, l.withFaults F⟩ : Async.Proc K V C E (Except E α)).task j = some (⟨x, l'.withFaults F⟩, e) := by
    simp only [Proc.task, background_withFaults, h, Option.map_some]
  cases hm with
  | running fast => exact ⟨_, htask h, .running fast⟩
  | reading reads fast => exact ⟨_, htask h, .reading reads fast⟩
  | writing writes fast => exact ⟨_, htask h, .writing writes fast⟩
  | late writes => exact ⟨_, htask h, .late writes⟩
  | cut => exact ⟨_, htask h, .cut⟩

end Steps

section Runs

variable {T tr rest : List (Turn × Effect K V C E)} {st : Store K V} {ps : List (Prog K V C E (Except E α) × Env C E)}
  {b : B.Pool C (Except E α)} {t : Turn} {e : Effect K V C E} {i : Nat}

omit [DecidableEq K] in
theorem shown_snoc : shown (tr ++ [(t, e)]) = shown tr ++ (e.event?.map (t, ·)).toList := by
  rw [shown, List.filterMap_append]
  cases h : e.event? <;> simp [shown, h]

omit [DecidableEq K] in
theorem outcomes_snoc : outcomes i (tr ++ [(t, e)]) =
    outcomes i tr ++ (if t = .main i then e.outcome? else none).toList := by
  rw [outcomes, List.filterMap_append]
  cases h : (if t = .main i then e.outcome? else none) <;> simp [outcomes, h]

omit [DecidableEq K] in
/-- The next outcome of the handler is the one of its next storage call. -/
theorem faultsOf_next (hT : T = tr ++ (.main i, e) :: rest) {o : Option E} (ho : e.outcome? = some o) :
    faultsOf T i (outcomes i tr).length = o := by
  have hsplit : outcomes i T = outcomes i tr ++ o :: outcomes i rest := by
    rw [hT, outcomes, List.filterMap_append, List.filterMap_cons_some (b := o) (by simpa using ho)]
    rfl
  rw [faultsOf, hsplit, List.getElem?_append_right (Nat.le_refl _), Nat.sub_self]
  rfl

/-- The handlers with the faults of the run. -/
def faulty (T : List (Turn × Effect K V C E)) (ps : List (Prog K V C E α × Env C E)) :
    List (Prog K V C E α × Env C E) :=
  ps.mapIdx fun i p => (p.1, { p.2 with fault := faultsOf T i })

/-- The pools have the same store, and the handlers match. -/
structure Simulates (T tr : List (Turn × Effect K V C E)) (b : B.Pool C (Except E α))
    (s : Async.Pool K V C E (Except E α)) : Prop where
  store : s.store = b.store
  procs : ∀ i q, b.procs[i]? = some q → ∃ p, s.procs[i]? = some p ∧ Matches (faultsOf T i) q p ∧
    q.loc.ios = (outcomes i tr).length

theorem simulates_init (hps : ∀ p ∈ ps, p.1.FailsFast) :
    Simulates T [] (Pool.init B st ps) (Async.Pool.init st (faulty T ps)) := by
  refine ⟨rfl, fun i q hq => ?_⟩
  rw [Pool.init, List.getElem?_map, Option.map_eq_some_iff] at hq
  obtain ⟨p, hp, rfl⟩ := hq
  refine ⟨_, ?_, .running (hps p (List.mem_of_getElem? hp)), rfl⟩
  simp only [Async.Pool.init, faulty, List.getElem?_map, List.getElem?_mapIdx, hp, Option.map_some]
  rfl

/-- **Every run over a backend is a run over the atomic store**, up to any moment of it. -/
theorem Run.simulates_upto (h : Run (Pool.init B st ps) tr b) (hps : ∀ p ∈ ps, p.1.FailsFast) :
    ∀ {rest : List (Turn × Effect K V C E)}, T = tr ++ rest →
      ∃ s, Async.Run (Async.Pool.init st (faulty T ps)) (shown tr) s ∧ Simulates T tr b s := by
  induction h with
  | nil => exact fun _ => ⟨_, .nil, simulates_init hps⟩
  | @snoc tr b b' t e _ hs ih =>
    intro rest hT
    rw [List.append_assoc, List.singleton_append] at hT
    obtain ⟨s, hrun, hstore, hprocs⟩ := ih hT
    rw [shown_snoc]
    -- the handler that moves matches again, and the others as before
    have hset {n : Nat} {q' : B.Proc C (Except E α)} {procs : List (Async.Proc K V C E (Except E α))}
        (hn : t.handler = n) (hothers : ∀ j : Nat, j ≠ n → procs[j]? = s.procs[j]?)
        (hq' : ∃ p', procs[n]? = some p' ∧ Matches (faultsOf T n) q' p' ∧
          q'.loc.ios = (outcomes n (tr ++ [(t, e)])).length) :
        ∀ j q, (b.procs.set n q')[j]? = some q → ∃ p, procs[j]? = some p ∧ Matches (faultsOf T j) q p ∧
          q.loc.ios = (outcomes j (tr ++ [(t, e)])).length := by
      intro j q hq
      rcases getElem?_set_cases hq with ⟨rfl, rfl⟩ | ⟨hne, hq⟩
      · exact hq'
      · rw [hothers j hne, outcomes_snoc, if_neg (by rintro rfl; exact hne hn), Option.toList_none, List.append_nil]
        exact hprocs j q hq
    cases hs with
    | @main i q q' st' e here move =>
      obtain ⟨p, hp, hm, hios⟩ := hprocs i q here
      have hlen : i < s.procs.length := (List.getElem?_eq_some_iff.mp hp).1
      have hios' : q'.loc.ios = (outcomes i (tr ++ [(.main i, e)])).length := by
        rw [move.ios, hios, outcomes_snoc, if_pos rfl, List.length_append]
      have hF (o : Option E) (ho : e.outcome? = some o) : faultsOf T i q.loc.ios = o := by
        rw [hios]
        exact faultsOf_next hT ho
      rcases hm.main move hF with ⟨hnone, hst, hm'⟩ | ⟨e', p', hsome, hmain, hm'⟩
      · rw [hnone]
        refine ⟨s, by simpa using hrun, hstore.trans hst.symm, ?_⟩
        exact hset rfl (fun _ _ => rfl) ⟨p, hp, hm', hios'⟩
      · rw [hsome]
        have hstep : s.step (.main i) = some (⟨st', s.procs.set i p'⟩, e') := by
          simp only [Async.Pool.step, hp, Option.bind_some, hstore, hmain, Option.map_some]
        refine ⟨_, .snoc hrun hstep, rfl, ?_⟩
        exact hset rfl (fun j hj => List.getElem?_set_ne (Ne.symm hj)) ⟨p', List.getElem?_set_self hlen, hm', hios'⟩
    | @task i j q l' e here attempt =>
      obtain ⟨p, hp, hm, hios⟩ := hprocs i q here
      have hlen : i < s.procs.length := (List.getElem?_eq_some_iff.mp hp).1
      obtain ⟨p', htask, hm'⟩ := hm.task attempt
      have hios' : l'.ios = (outcomes i (tr ++ [(.task i j, .event e)])).length := by
        rw [ios_background attempt, hios, outcomes_snoc, if_neg (by simp), Option.toList_none, List.append_nil]
      have hstep : s.step (.task i j) = some (⟨s.store, s.procs.set i p'⟩, e) := by
        simp only [Async.Pool.step, hp, Option.bind_some, htask, Option.map_some]
      refine ⟨_, .snoc hrun hstep, hstore, ?_⟩
      exact hset rfl (fun j hj => List.getElem?_set_ne (Ne.symm hj)) ⟨p', List.getElem?_set_self hlen, hm', hios'⟩

/-- **Every run over a backend is a run over the atomic store**, with the same store and the same results of the
handlers that succeed; some storage calls of it fail, and some handlers of it are cut off. -/
theorem Run.simulates (h : Run (Pool.init B st ps) tr b) (hps : ∀ p ∈ ps, p.1.FailsFast) :
    ∃ (F : Nat → Nat → Option E) (s : Async.Pool K V C E (Except E α)),
      Async.Run (Async.Pool.init st (ps.mapIdx fun i p => (p.1, { p.2 with fault := F i }))) (shown tr) s ∧
      s.store = b.store ∧ ∀ (i : Nat) (q : B.Proc C (Except E α)) (a : α), b.procs[i]? = some q →
        q.result = some (.ok a) → ∃ p, s.procs[i]? = some p ∧ p.prog = .ret (.ok a) := by
  obtain ⟨s, hrun, hsim⟩ := h.simulates_upto hps (List.append_nil tr).symm
  refine ⟨faultsOf tr, s, hrun, hsim.store, fun i q a hi ha => ?_⟩
  obtain ⟨p, hp, hm, -⟩ := hsim.procs i q hi
  exact ⟨p, hp, hm.result ha⟩

end Runs

end Backend

end Async
