import Seata.Api
import Seata.Async.Completion

/-!
# What the handlers are made of

Apart from a submit, every operation is made of gets, puts, clock readings and new identifiers: what passes through
these (`Fallible.Closed`) is true of all of them, and of every handler as soon as it is true of a submit
(`closed_program`).
-/

namespace Seata

open Async

variable [SerdeJson] {P : ∀ α : Type, Server α → Prop} (hP : Fallible.Closed P)
include hP

theorem closed_load {α : Type} {gid : String} {K : Option GlobalTxn → Server α} (hK : ∀ o, P α (K o)) :
    P α (load gid >>= K) := by
  simp only [load, bind_assoc]
  refine hP.get fun v => ?_
  cases v with
  | none => exact hK none
  | some val =>
    dsimp only
    cases fromSlice val with
    | ok tx => exact hK (some tx)
    | error e => exact hP.throw e

theorem closed_save (tx : GlobalTxn) : P Unit (save tx) := by
  rw [save, ← bind_pure (Fallible.put _ _)]
  exact hP.put (hP.pure ())

theorem closed_start (gid mode : String) (payload : Bytes) : P String (start gid mode payload) := by
  have hrest (gid : String) : P String (do
      let now ← Fallible.now
      let mode := if mode.isEmpty then "saga" else mode
      save (GlobalTxn.new gid mode payload now)
      return gid) := hP.now fun _ => hP.put (hP.pure gid)
  rw [start]
  split
  · exact hP.newId hrest
  · rw [pure_bind]
    exact hrest gid

theorem closed_abort (gid : String) : P Unit (abort gid) := by
  refine closed_load hP fun o => ?_
  cases o with
  | none => exact hP.pure ()
  | some tx => exact hP.now fun _ => closed_save hP _

theorem closed_addBranch (gid branchId action : String) : P Unit (addBranch gid branchId action) := by
  refine closed_load hP fun o => ?_
  cases o with
  | none => exact hP.pure ()
  | some tx =>
    dsimp only
    split
    · exact hP.now fun _ => closed_save hP _
    · exact hP.pure ()

theorem closed_setBranch (status : BranchStatus) (gid branchId : String) :
    P Unit (setBranch status gid branchId) := by
  refine closed_load hP fun o => ?_
  cases o with
  | none => exact hP.pure ()
  | some tx =>
    dsimp only
    split
    · exact hP.now fun _ => closed_save hP _
    · exact hP.pure ()

omit [SerdeJson] in
theorem closed_guarded (phase : BarrierPhase) (gid branchId : String) {operation : Server Unit}
    (h : P Unit operation) : P Unit (guarded phase gid branchId operation) := by
  simp only [guarded, Barrier.insert, bind_assoc]
  refine hP.get fun v => ?_
  split
  · exact hP.pure ()
  · rw [bind_assoc]
    refine hP.put ?_
    rw [pure_bind]
    exact h

variable {exec : ExecConfig} (hsubmit : ∀ gid, P Unit (submit exec gid))
include hsubmit

theorem closed_request (r : Request) : P Response (r.handler exec) := by
  cases r with
  | start gid mode payload => exact hP.map _ (closed_start hP gid mode payload)
  | submit gid => exact hP.map _ (hsubmit gid)
  | abort gid => exact hP.map _ (closed_abort hP gid)
  | addBranch gid branchId action => exact hP.map _ (closed_addBranch hP gid branchId action)
  | branchTry gid branchId action => exact hP.map _ (closed_guarded hP _ _ _ (closed_addBranch hP gid branchId action))
  | branchSucceed gid branchId => exact hP.map _ (closed_guarded hP _ _ _ (closed_setBranch hP .succeed gid branchId))
  | branchFail gid branchId => exact hP.map _ (closed_guarded hP _ _ _ (closed_setBranch hP .failed gid branchId))

/-- **What is true of a submit**, and passes through the other operations, is true of every handler. -/
theorem closed_program (o : Operation) : P Outcome (o.program exec) := by
  cases o with
  | request r => exact hP.map _ (closed_request hP hsubmit r)
  | get gid => exact closed_load hP fun o => hP.pure _
  | unknown => exact hP.throw _

end Seata
