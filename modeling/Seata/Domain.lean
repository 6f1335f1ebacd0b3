import Mathlib.Data.List.Basic

/-!
# Transactions and branches

The records of `domain.rs`: a global transaction with its branches, their statuses, and the phases of the barrier.
-/

namespace Seata

abbrev Bytes : Type := List UInt8

/-- The bytes of a string. -/
def asBytes (s : String) : Bytes := s.toUTF8.data.toList

theorem asBytes_append (s t : String) : asBytes (s ++ t) = asBytes s ++ asBytes t := by
  simp [asBytes]

theorem asBytes_injective : Function.Injective asBytes := by
  intro s t h
  have h' : s.toUTF8 = t.toUTF8 := ByteArray.ext (Array.toList_inj.mp h)
  exact String.toByteArray_inj.mp h'

inductive GlobalStatus where
  | submitted
  | aborting
  | aborted
  | committing
  | committed
  deriving DecidableEq, Repr

inductive BranchStatus where
  | prepared
  | succeed
  | failed
  deriving DecidableEq, Repr

structure BranchTxn where
  branchId : String
  action : String
  status : BranchStatus
  deriving DecidableEq, Repr

structure GlobalTxn where
  gid : String
  mode : String
  status : GlobalStatus
  payload : Bytes
  branches : List BranchTxn
  updatedUnix : Int
  createdUnix : Int
  deriving DecidableEq, Repr

def GlobalTxn.new (gid mode : String) (payload : Bytes) (nowUnix : Int) : GlobalTxn where
  gid := gid
  mode := mode
  status := .submitted
  payload := payload
  branches := []
  updatedUnix := nowUnix
  createdUnix := nowUnix

/-- The phases of the barrier. -/
inductive BarrierPhase where
  | tryPhase
  | confirm
  | cancel
  deriving DecidableEq, Repr

end Seata
