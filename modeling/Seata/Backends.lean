import Seata.Evidence
import Seata.SeaKv
import Seata.Async.Backend

/-!
# The server over its backends

The store of the server is a sled tree, a Redis database or a table of a SQL database, as selected when the server
starts. Over SQL a put is two statements, and the statements of other handlers come between them; with MySQL an insert
is answered by an error after it has taken place. A call to Redis times out, a connection breaks, and a request runs
into the timeout of the HTTP service: what the handler has sent by then may take place later, or never.

Every handler fails fast (`failsFast_program`), so a run over a backend is a run over an atomic store. What is true of
all of these is true of the server over every backend (`backends_sound`): **the records keep their integrity, every
outcome has its evidence, what is posted was asked for, and what is read is true**.
-/

namespace Seata

open Async Linear

/-! ## Backends -/

/-- A command of a database that gets and puts by itself. -/
inductive Command where
  | get (k : Bytes)
  | put (k v : Bytes)
  deriving DecidableEq, Repr

@[reducible] def Command.Answer : Command → Type
  | .get _ => Option Bytes
  | .put _ _ => Unit

def Command.perform : Semantics Command.Answer Kv
  | .get k, t => (t.lookup k, t)
  | .put k v, t => ((), t.insert k v)

/-- One command for each call. -/
def Command.backend : Backend Bytes Bytes Error where
  Stm := Command
  Ans := Command.Answer
  sem := Command.perform
  get k := .ask (.get k) fun v => .ret (.ok v)
  put k v := .ask (.put k v) fun _ => .ret (.ok ())
  reads _ _ := ⟨rfl, .inl rfl⟩
  writes _ _ _ := .inl ⟨rfl, _, rfl⟩

/-- `db.get(key)` and `db.insert(key, value)` -/
def SledKv.backend : Backend Bytes Bytes Error := Command.backend

/-- `GET` and `SET` -/
def RedisKv.backend : Backend Bytes Bytes Error := Command.backend

namespace SeaKv

/-- A call of the table with the error that it is reported with. -/
def reported {α : Type} (report : DbErr → Error) (x : Db α) : Code Statement Statement.Answer (Except Error α) :=
  x.run.bind fun r => .ret (r.mapError report)

variable (db : Database) (report : DbErr → Error)

theorem reads_get (k : Bytes) : Reads (Statement.perform db) k (reported report (get k)) := fun _ => ⟨rfl, .inl rfl⟩

/-- An update of a row, or it fails. -/
theorem writes_update (k v : Bytes) : Writes (Statement.perform db) k v (reported report (update k v)) := by
  show Writes (Statement.perform db) k v (.ask (.update k v) fun r => .ret (r.mapError report))
  intro t
  rw [Statement.perform]
  split
  · exact .inr ⟨rfl, _, rfl⟩
  · split
    · exact .inl ⟨rfl, _, rfl⟩
    · exact .inr ⟨rfl, _, rfl⟩

theorem reported_insert (k v : Bytes) : reported report (insert db k v) =
    .ask (.insert k v) fun r => .ret ((r.bind fun _ => db.inserted).mapError report) := by
  refine congrArg (Code.ask (Statement.insert k v)) (funext fun r => ?_)
  cases r <;> rfl

/-- A new row, whatever is answered then, or it fails. -/
theorem writes_insert (k v : Bytes) : Writes (Statement.perform db) k v (reported report (insert db k v)) := by
  rw [reported_insert]
  intro t
  rw [Statement.perform]
  split
  · exact .inl ⟨rfl, _, rfl⟩
  · exact .inr ⟨rfl, _, rfl⟩

/-- **A put is one statement** after its select, or it fails. -/
theorem writes_put (k v : Bytes) : Writes (Statement.perform db) k v (reported report (put db k v)) := by
  intro t
  refine .inr ⟨rfl, ?_⟩
  cases hrow : t.lookup k with
  | some _ =>
    simp only [Statement.perform, hrow]
    exact writes_update db report k v
  | none =>
    simp only [Statement.perform, hrow]
    exact writes_insert db report k v

def backend : Backend Bytes Bytes Error where
  Stm := Statement
  Ans := Statement.Answer
  sem := Statement.perform db
  get k := reported report (get k)
  put k v := reported report (put db k v)
  reads := reads_get db report
  writes := writes_put db report

end SeaKv

/-- The driver of the store in the settings. -/
inductive StoreDriver where
  | boltdb
  | redis
  | mysql
  | postgres
  deriving DecidableEq, Repr

/-- The store that `main` selects: prefer the environment, otherwise the settings. -/
def StoreDriver.select (envStore : Option String) (store : StoreDriver) : StoreDriver :=
  match envStore with
  | some store =>
    if store = "redis" then .redis
    else if store = "mysql" then .mysql
    else if store = "postgres" then .postgres
    else .boltdb
  | none => store

/-- The backend of a driver; a SQL database holds these rows. -/
def StoreDriver.backend (holds : Bytes → Bytes → Bool) (report : SeaKv.DbErr → Error) :
    StoreDriver → Backend Bytes Bytes Error
  | .boltdb => SledKv.backend
  | .redis => RedisKv.backend
  | .mysql => SeaKv.backend ⟨.mySql, holds⟩ report
  | .postgres => SeaKv.backend ⟨.postgres, holds⟩ report

/-! ## Handlers that fail fast -/

section Backends

variable [SerdeJson]

omit [SerdeJson] in
theorem failsFast_dispatch (tx : GlobalTxn) : ∀ l : List (BranchTxn × Nat), Fallible.FailsFast (dispatch tx l)
  | [] => Fallible.failsFast_pure []
  | (b, i) :: rest => by
    rw [dispatch]
    split
    · exact failsFast_dispatch tx rest
    · refine Fallible.failsFast_bind Fallible.failsFast_acquire fun _ => ?_
      refine Fallible.failsFast_bind (Fallible.failsFast_spawn _) fun _ => ?_
      exact Fallible.failsFast_bind (failsFast_dispatch tx rest) fun _ => Fallible.failsFast_pure _

omit [SerdeJson] in
theorem failsFast_joinAll : ∀ (l : List (Nat × Nat)) (tx : GlobalTxn), Fallible.FailsFast (joinAll l tx)
  | [], tx => Fallible.failsFast_pure tx
  | (i, h) :: rest, tx => by
    rw [joinAll]
    refine Fallible.failsFast_bind (Fallible.failsFast_join h) fun r => ?_
    dsimp only
    split
    · exact failsFast_joinAll rest _
    · exact failsFast_joinAll rest _

theorem failsFast_submit (exec : ExecConfig) (gid : String) : Fallible.FailsFast (submit exec gid) := by
  refine closed_load Fallible.closed_failsFast fun o => ?_
  cases o with
  | none => exact Fallible.failsFast_pure ()
  | some tx =>
    have hsave (tx : GlobalTxn) : Fallible.FailsFast (save tx) := closed_save Fallible.closed_failsFast tx
    refine Fallible.closed_failsFast.now fun _ => Fallible.closed_failsFast.put ?_
    refine Fallible.failsFast_bind (Fallible.failsFast_semaphore _) fun _ => ?_
    refine Fallible.failsFast_bind (failsFast_dispatch _ _) fun _ => ?_
    refine Fallible.failsFast_bind (failsFast_joinAll _ _) fun _ => ?_
    refine Fallible.closed_failsFast.now fun _ => Fallible.failsFast_bind (hsave _) fun _ => ?_
    exact Fallible.closed_failsFast.now fun _ => hsave _

theorem failsFast_program (exec : ExecConfig) (o : Operation) : (o.program exec).run.FailsFast :=
  closed_program Fallible.closed_failsFast (failsFast_submit exec) o

/-! ## Requests that differ in their faults -/

/-- The requests `rs'` are requests of `rs`, as far as their identifiers and clocks go. -/
def SameButFaults (rs rs' : List (Request × World)) : Prop :=
  ∀ r ∈ rs', ∃ w, (r.1, w) ∈ rs ∧ w.id = r.2.id ∧ w.clock = r.2.clock

section SameButFaults

omit [SerdeJson]

variable {rs rs' : List (Request × World)} (h : SameButFaults rs rs')
include h

theorem Asked.butFaults {r : Request} (ha : Asked rs' r) : Asked rs r := by
  obtain ⟨w', hw'⟩ := ha
  obtain ⟨w, hw, -⟩ := h _ hw'
  exact ⟨w, hw⟩

theorem Supplied.butFaults {g branchId action : String} (hs : Supplied rs' g branchId action) :
    Supplied rs g branchId action := by
  obtain ⟨r, hr, hreq⟩ := hs
  obtain ⟨w, hw, -⟩ := h r hr
  exact ⟨_, hw, hreq⟩

theorem Integrity.butFaults {g : String} {tx : GlobalTxn} (hi : Integrity rs' g tx) : Integrity rs g tx where
  gid := hi.gid
  distinct := hi.distinct
  supplied b hb := (hi.supplied b hb).butFaults h
  started := by
    obtain ⟨r, hr, gid, mode, payload, hstart, hgid, hmode, hpayload, hcreated⟩ := hi.started
    obtain ⟨w, hw, hid, hclock⟩ := h r hr
    exact ⟨_, hw, gid, mode, payload, hstart, hid ▸ hgid, hmode, hpayload, hclock ▸ hcreated⟩

theorem Genuine.butFaults {c : BranchCall} (hc : Genuine rs' c) : Genuine rs c := by
  refine ⟨hc.supplied.butFaults h, ?_⟩
  obtain ⟨r, hr, gid, mode, payload, hstart, hgid, hrest⟩ := hc.started
  obtain ⟨w, hw, hid, -⟩ := h r hr
  exact ⟨_, hw, gid, mode, payload, hstart, hid ▸ hgid, hrest⟩

theorem Warranted.butFaults {g : String} {status : GlobalStatus} (hs : Warranted rs' g status) :
    Warranted rs g status := by
  cases status with
  | submitted => trivial
  | aborting => exact hs
  | aborted => exact Or.imp (Asked.butFaults h) (Asked.butFaults h) hs
  | committing => exact Asked.butFaults h hs
  | committed => exact Asked.butFaults h hs

theorem Evident.butFaults {ok ko : String → String → Prop} {tx : GlobalTxn} (he : Evident rs' ok ko tx) :
    Evident rs ok ko tx where
  status := he.status.butFaults h
  succeeded b hb hs := (he.succeeded b hb hs).imp (Asked.butFaults h) id
  failed b hb hs := (he.failed b hb hs).imp (Asked.butFaults h) (Or.imp (Asked.butFaults h) id)

end SameButFaults

/-! ## The server over a backend -/

/-- The operations of the calls over a backend. -/
def operatingOver (B : Backend Bytes Bytes Error) (exec : ExecConfig) (st : Kv) (cs : List (ApiCall × World)) :
    B.Pool BranchCall (Except Error Outcome) :=
  .init B st ((operations cs).map fun o => ((o.1.program exec).run, o.2))

/-- The same calls with other faults. -/
def withFaults (F : Nat → Nat → Option Error) (cs : List (ApiCall × World)) : List (ApiCall × World) :=
  cs.mapIdx fun i c => (c.1, { c.2 with fault := F i })

omit [SerdeJson] in
theorem sameButFaults (F : Nat → Nat → Option Error) (cs : List (ApiCall × World)) :
    SameButFaults (requestsOf cs) (requestsOf (withFaults F cs)) := by
  intro r hr
  obtain ⟨o, ho, hreq⟩ := List.mem_filterMap.mp hr
  obtain ⟨c, hc, rfl⟩ := List.mem_map.mp ho
  obtain ⟨i, hi, rfl⟩ := List.mem_mapIdx.mp hc
  have hmem : (cs[i].1.operation, cs[i].2) ∈ operations cs := List.mem_map_of_mem (List.getElem_mem hi)
  cases hop : cs[i].1.operation with
  | request r' =>
    simp only [hop, Operation.request?, Option.some.injEq] at hreq
    subst hreq
    refine ⟨cs[i].2, List.mem_filterMap.mpr ⟨_, hmem, ?_⟩, rfl, rfl⟩
    simp only [hop, Operation.request?]
  | get gid => simp [hop, Operation.request?] at hreq
  | unknown => simp [hop, Operation.request?] at hreq

/-- **The server over a backend is the server over the atomic store**, with some faults. -/
theorem backend_refines {B : Backend Bytes Bytes Error} {exec : ExecConfig} {st : Kv} {cs : List (ApiCall × World)}
    {tr : List (Turn × Effect Bytes Bytes BranchCall Error)} {b : B.Pool BranchCall (Except Error Outcome)}
    (h : Backend.Run (operatingOver B exec st cs) tr b) : ∃ F s,
      Async.Run (operating exec st (operations (withFaults F cs))) (Backend.shown tr) s ∧ s.store = b.store ∧
      ∀ (i : Nat) (q : B.Proc BranchCall (Except Error Outcome)) (a : Outcome), b.procs[i]? = some q →
        q.result = some (.ok a) → ∃ p, s.procs[i]? = some p ∧ p.prog = .ret (.ok a) := by
  have hfast (p : Prog Bytes Bytes BranchCall Error (Except Error Outcome) × World)
      (hp : p ∈ (operations cs).map fun o => ((o.1.program exec).run, o.2)) : p.1.FailsFast := by
    obtain ⟨o, -, rfl⟩ := List.mem_map.mp hp
    exact failsFast_program exec o.1
  obtain ⟨F, s, hrun, hstore, hok⟩ := h.simulates hfast
  have hsame : (((operations cs).map fun o => ((o.1.program exec).run, o.2)).mapIdx fun i p =>
      (p.1, ({ p.2 with fault := F i } : World))) =
      (operations (withFaults F cs)).map fun o => ((o.1.program exec).run, o.2) := by
    refine List.ext_getElem? fun i => ?_
    simp only [operations, withFaults, List.getElem?_mapIdx, List.getElem?_map, Option.map_map]
    rfl
  rw [hsame] at hrun
  exact ⟨F, s, hrun, hstore, hok⟩

/-- **The server is sound over every backend** that `main` can select, whatever the statements of the handlers, late
ones too, do to each other. -/
theorem backends_sound (exec : ExecConfig) (envStore : Option String) (store : StoreDriver)
    (holds : Bytes → Bytes → Bool) (report : SeaKv.DbErr → Error) (cs : List (ApiCall × World))
    {tr : List (Turn × Effect Bytes Bytes BranchCall Error)}
    {b : ((StoreDriver.select envStore store).backend holds report).Pool BranchCall (Except Error Outcome)}
    (h : Backend.Run (operatingOver _ exec ∅ cs) tr b) :
    (∀ g tx, record b.store g = some tx → Integrity (requestsOf cs) g tx ∧
      Evident (requestsOf cs) (Accepted (Backend.shown tr)) (Refused (Backend.shown tr)) tx) ∧
    (∀ t e c, (t, .event e) ∈ tr → e.attempts c → Genuine (requestsOf cs) c) ∧
    ∀ (i : Nat) (tx : GlobalTxn), (∃ q, b.procs[i]? = some q ∧ q.result = some (.ok (.found (some tx)))) →
      ∃ c g, cs[i]? = some c ∧ c.1.operation = .get g ∧ Integrity (requestsOf cs) g tx := by
  obtain ⟨F, s, hrun, hstore, hok⟩ := backend_refines h
  have hsame := sameButFaults F cs
  obtain ⟨hrecords, hposts⟩ := run_upright hrun
  refine ⟨fun g tx htx => ?_, fun t e c hm hc => ?_, fun i tx hi => ?_⟩
  · rw [← hstore] at htx
    obtain ⟨hI, hE⟩ := hrecords g tx htx
    exact ⟨hI.butFaults hsame, hE.butFaults hsame⟩
  · have hshown : (t, e) ∈ Backend.shown tr := List.mem_filterMap.mpr ⟨_, hm, rfl⟩
    exact (hposts t e c hshown hc).butFaults hsame
  · obtain ⟨q, hq, hresult⟩ := hi
    obtain ⟨p, hp, hret⟩ := hok i q _ hq hresult
    obtain ⟨c, hc, g, hget, hI⟩ := (run_genuine hrun).2.1 i p _ hp hret
    rw [withFaults, List.getElem?_mapIdx, Option.map_eq_some_iff] at hc
    obtain ⟨c', hc', rfl⟩ := hc
    exact ⟨c', g, hc', hget, hI.butFaults hsame⟩

end Backends

section Example

attribute [local instance] Json.serdeJson

/-- MySQL, with the server started for it. -/
def mysql : Backend Bytes Bytes Error :=
  (StoreDriver.select (some "mysql") .boltdb).backend (fun _ _ => true) fun _ => ⟨"Execution Error"⟩

/-- The start is answered with an error, though its row is there; a get reads it, and the branch is called. -/
theorem backends_sound_mysql :
    let tx : GlobalTxn := ⟨"g", "saga", .submitted, [1, 2], [], 1, 1⟩
    let tx' : GlobalTxn := ⟨"g", "saga", .committing, [1, 2], [⟨"b", "http://b", .prepared⟩], 3, 1⟩
    (Integrity (requestsOf mixedCalls) "g" tx' ∧ ∃ ok ko, Evident (requestsOf mixedCalls) ok ko tx') ∧
      Genuine (requestsOf mixedCalls) ⟨"http://b", "g", "b", "saga", "AQI=", 0⟩ ∧
      ∃ c g, mixedCalls[3]? = some c ∧ c.1.operation = .get g ∧ Integrity (requestsOf mixedCalls) g tx := by
  intro tx tx'
  have hruns : ∃ tr b, Backend.Run (operatingOver mysql .default ∅ mixedCalls) tr b ∧
      (Stored b.store tx' ∧
        (Turn.task 2 0, Effect.event (.post ⟨"http://b", "g", "b", "saga", "AQI=", 0⟩ true)) ∈ tr ∧
        b.procs[3]?.bind (·.result) = some (.ok (.found (some tx)))) :=
    Backend.exists_run_of_moves ([.go 0, .go 0, .go 0, .go 0, .go 3, .go 3] ++
      .replicate 6 (.go 1) ++ .replicate 9 (.go 2) ++ [.task 2 0]) (by decide +kernel)
  obtain ⟨tr, b, h, hstored, hpost, hread⟩ := hruns
  obtain ⟨hrecords, hposts, hreads⟩ := backends_sound .default (some "mysql") .boltdb _ _ mixedCalls h
  obtain ⟨hI, hE⟩ := hrecords "g" tx' (hstored.record rfl)
  exact ⟨⟨hI, _, _, hE⟩, hposts _ _ _ hpost rfl, hreads 3 tx (Option.bind_eq_some_iff.mp hread)⟩

end Example

end Seata
