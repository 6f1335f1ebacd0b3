import Seata.Domain
import Seata.Async.Script

/-!
# The key-value store and what is kept in it

- `Server`: the handlers work with byte strings as keys and values, post `BranchCall`s in the background and fail with
  an `Error`;
- `SerdeJson`: the encoding of records, of which the server relies on one law, that decoding inverts encoding;
- `load` and `save` of the transaction repository (`repo.rs`), and `key` and `insert` of the barrier (`barrier.rs`).
-/

namespace Seata

open Async

/-- An `anyhow::Error`: the text it is reported with. -/
structure Error where
  message : String
  deriving DecidableEq, Repr

/-- The request that a branch task posts to `url`. The position of the branch in its record is not sent; it names
the task in traces. -/
structure BranchCall where
  url : String
  gid : String
  branchId : String
  mode : String
  payload : String
  slot : Nat
  deriving DecidableEq, Repr

/-- An operation of the server. -/
abbrev Server (α : Type) : Type := Fallible Bytes Bytes BranchCall Error α

/-- What a request meets. -/
abbrev World : Type := Env BranchCall Error

/-- The content of the key-value store. -/
abbrev Kv : Type := Store Bytes Bytes

/-- `serde_json::to_vec` and `serde_json::from_slice` on transaction records. -/
class SerdeJson where
  toVec : GlobalTxn → Bytes
  fromSlice : Bytes → Except Error GlobalTxn
  fromSlice_toVec (tx : GlobalTxn) : fromSlice (toVec tx) = .ok tx

export SerdeJson (toVec fromSlice)

attribute [simp] SerdeJson.fromSlice_toVec

/-! ## The transaction repository -/

/-- `format!("gid:{}", gid).as_bytes()` -/
def txnKey (gid : String) : Bytes := asBytes ("gid:" ++ gid)

section Repo

variable [SerdeJson]

def save (tx : GlobalTxn) : Server Unit :=
  Fallible.put (txnKey tx.gid) (toVec tx)

def load (gid : String) : Server (Option GlobalTxn) := do
  match ← Fallible.get (txnKey gid) with
  | none => return none
  | some val =>
    match fromSlice val with
    | .ok tx => return some tx
    | .error e => throw e

end Repo

/-! ## The barrier -/

namespace Barrier

def phaseName : BarrierPhase → String
  | .tryPhase => "try"
  | .confirm => "confirm"
  | .cancel => "cancel"

/-- `format!("barrier:{}:{}:{}", gid, branch_id, p)` -/
def key (gid branchId : String) (phase : BarrierPhase) : String :=
  "barrier:" ++ gid ++ ":" ++ branchId ++ ":" ++ phaseName phase

/-- The mark is looked up and written by two separate calls of the store. -/
def insert (gid branchId : String) (phase : BarrierPhase) : Server Bool := do
  let v ← Fallible.get (asBytes (key gid branchId phase))
  if v.isSome then
    return false
  Fallible.put (asBytes (key gid branchId phase)) []
  return true

/-- Whether the mark is there. -/
def «exists» (gid branchId : String) (phase : BarrierPhase) : Server Bool := do
  let v ← Fallible.get (asBytes (key gid branchId phase))
  return v.isSome

end Barrier

/-! ## Keys -/

theorem txnKey_injective : Function.Injective txnKey := by
  intro g g' h
  rw [txnKey, txnKey, asBytes_append, asBytes_append] at h
  exact asBytes_injective (List.append_cancel_left h)

/-- A mark is never kept under the key of a transaction: the keys differ in their first byte. -/
theorem mark_ne_txnKey (g b : String) (p : BarrierPhase) (g' : String) : asBytes (Barrier.key g b p) ≠ txnKey g' := by
  intro h
  have hm : (asBytes (Barrier.key g b p)).head? = some 98 := by
    simp only [Barrier.key, asBytes_append, List.append_assoc]
    rfl
  have ht : (txnKey g').head? = some 103 := by
    rw [txnKey, asBytes_append]
    rfl
  rw [h, ht] at hm
  exact absurd hm (by decide)

end Seata
