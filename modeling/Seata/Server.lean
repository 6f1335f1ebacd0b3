import Seata.Saga

/-!
# The requests of the server

The three branch handlers of `main.rs` put a barrier mark first and skip the operation when the mark was there. A
`Request` is one call of the API; `SagaRequest` is one call of the saga manager, without the barrier.
-/

namespace Seata

open Async

variable [SerdeJson]

/-- What the branch handlers share: the barrier mark first, and the operation only if the mark is new. -/
def guarded (phase : BarrierPhase) (gid branchId : String) (operation : Server Unit) : Server Unit := do
  if ← Barrier.insert gid branchId phase then
    operation

def httpBranchTry (gid branchId action : String) : Server Unit :=
  guarded .tryPhase gid branchId (addBranch gid branchId action)

def httpBranchSucceed (gid branchId : String) : Server Unit :=
  guarded .confirm gid branchId (branchSucceed gid branchId)

def httpBranchFail (gid branchId : String) : Server Unit :=
  guarded .cancel gid branchId (branchFail gid branchId)

/-- A call of the API. -/
inductive Request where
  | start (gid mode : String) (payload : Bytes)
  | submit (gid : String)
  | abort (gid : String)
  | addBranch (gid branchId action : String)
  | branchTry (gid branchId action : String)
  | branchSucceed (gid branchId : String)
  | branchFail (gid branchId : String)
  deriving DecidableEq, Repr

/-- The gid that a request returns, if it returns one. -/
abbrev Response : Type := Option String

/-- The handler of a request. -/
def Request.handler (exec : ExecConfig) : Request → Server Response
  | .start gid mode payload => return some (← Seata.start gid mode payload)
  | .submit gid => do Seata.submit exec gid; return none
  | .abort gid => do Seata.abort gid; return none
  | .addBranch gid branchId action => do Seata.addBranch gid branchId action; return none
  | .branchTry gid branchId action => do httpBranchTry gid branchId action; return none
  | .branchSucceed gid branchId => do httpBranchSucceed gid branchId; return none
  | .branchFail gid branchId => do httpBranchFail gid branchId; return none

/-- A call of the saga manager on an existing transaction. -/
inductive SagaRequest where
  | submit (gid : String)
  | abort (gid : String)
  | addBranch (gid branchId action : String)
  | branchSucceed (gid branchId : String)
  | branchFail (gid branchId : String)
  deriving DecidableEq, Repr

/-- The transaction that a request is about. -/
def SagaRequest.gid : SagaRequest → String
  | .submit gid => gid
  | .abort gid => gid
  | .addBranch gid _ _ => gid
  | .branchSucceed gid _ => gid
  | .branchFail gid _ => gid

def SagaRequest.handler (exec : ExecConfig) : SagaRequest → Server Unit
  | .submit gid => Seata.submit exec gid
  | .abort gid => Seata.abort gid
  | .addBranch gid branchId action => Seata.addBranch gid branchId action
  | .branchSucceed gid branchId => Seata.branchSucceed gid branchId
  | .branchFail gid branchId => Seata.branchFail gid branchId

/-- Handlers in flight over the store of the server. -/
abbrev Handlers (α : Type) : Type := Pool Bytes Bytes BranchCall Error (Except Error α)

/-- The turns and events of a run of the server. -/
abbrev Log : Type := Trace Bytes Bytes BranchCall

/-- Requests that arrive together, each with what it will meet. -/
def serving (exec : ExecConfig) (st : Kv) (rs : List (Request × World)) : Handlers Response :=
  .init st (rs.map fun r => ((r.1.handler exec).run, r.2))

/-- The same for calls of the saga manager. -/
def managing (exec : ExecConfig) (st : Kv) (rs : List (SagaRequest × World)) : Handlers Unit :=
  .init st (rs.map fun r => ((r.1.handler exec).run, r.2))

/-- The record `tx` is what the store keeps under its gid. -/
def Stored (st : Kv) (tx : GlobalTxn) : Prop := st.lookup (txnKey tx.gid) = some (toVec tx)

instance (st : Kv) (tx : GlobalTxn) : Decidable (Stored st tx) := inferInstanceAs (Decidable (_ = _))

/-- The store with just this record. -/
def holding (tx : GlobalTxn) : Kv := (∅ : Kv).insert (txnKey tx.gid) (toVec tx)

theorem stored_holding (tx : GlobalTxn) : Stored (holding tx) tx := Finmap.lookup_insert _

end Seata
