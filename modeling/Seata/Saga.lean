import Seata.Storage

/-!
# The saga manager

The operations of `SagaManager` (`saga.rs`) as programs: `start`, `submit`, `abort`, `addBranch`, `branchSucceed` and
`branchFail`. Each of them loads the whole record, changes its own copy and saves it; `submit` saves three times and
waits for the branch calls in between.

The retry loop of a branch task is not a program here: how often it posts and how it ends is the `Outcome` of its
call.
-/

namespace Seata

open Async

structure ExecConfig where
  requestTimeoutSecs : Nat
  retryIntervalSecs : Nat
  timeoutToFailSecs : Nat
  branchParallelism : Nat
  deriving DecidableEq, Repr

/-- The configuration of `SagaManager::new`. -/
def ExecConfig.default : ExecConfig where
  requestTimeoutSecs := 3
  retryIntervalSecs := 10
  timeoutToFailSecs := 35
  branchParallelism := 8

/-! ## The payload of a branch call -/

namespace Base64

def alphabet : List Char :=
  "ABCDEFGHIJKLMNOPQRSTUVWXYZabcdefghijklmnopqrstuvwxyz0123456789+/".toList

def sextet (n : Nat) : Char := alphabet.getD (n % 64) '='

/-- `STANDARD.encode`: three bytes to four letters, the last group padded. -/
def encodeChars : Bytes → List Char
  | a :: b :: c :: rest =>
    let n := a.toNat * 65536 + b.toNat * 256 + c.toNat
    sextet (n / 262144) :: sextet (n / 4096) :: sextet (n / 64) :: sextet n :: encodeChars rest
  | [a, b] =>
    let n := a.toNat * 65536 + b.toNat * 256
    [sextet (n / 262144), sextet (n / 4096), sextet (n / 64), '=']
  | [a] =>
    let n := a.toNat * 65536
    [sextet (n / 262144), sextet (n / 4096), '=', '=']
  | [] => []

def encode (payload : Bytes) : String := String.ofList (encodeChars payload)

example : encode [116, 101, 115, 116] = "dGVzdA==" := by decide

end Base64

/-! ## Changing branches -/

/-- `tx.branches[i].status = status` -/
def GlobalTxn.setStatus (tx : GlobalTxn) (i : Nat) (status : BranchStatus) : GlobalTxn :=
  { tx with branches := tx.branches.modify i fun b => { b with status := status } }

/-- `iter_mut().find(p)` and an update of what it found. -/
def updateFirst {α : Type} (p : α → Bool) (f : α → α) : List α → Option (List α)
  | [] => none
  | a :: as => if p a then some (f a :: as) else (updateFirst p f as).map (a :: ·)

/-- What a branch task posts: the URL and the JSON body. -/
def branchCall (tx : GlobalTxn) (i : Nat) (b : BranchTxn) : BranchCall where
  url := b.action
  gid := tx.gid
  branchId := b.branchId
  mode := tx.mode
  payload := Base64.encode tx.payload
  slot := i

/-- The final status of a submitted transaction. -/
def finalStatus (branches : List BranchTxn) : GlobalStatus :=
  if branches.all fun b => b.status == .succeed then .committed
  else if branches.any fun b => b.status == .failed then .aborted
  else .committed

/-- The `prepared_indices` of `submit`. -/
def preparedIndices (branches : List BranchTxn) : List Nat :=
  (branches.zipIdx.filter fun p => p.1.status == .prepared).map Prod.snd

/-! ## The operations -/

/-- The dispatch loop: one permit and one task for each prepared branch. -/
def dispatch (tx : GlobalTxn) : List (BranchTxn × Nat) → Server (List Nat)
  | [] => return []
  | (b, i) :: rest => do
    if b.status ≠ .prepared then
      dispatch tx rest
    else
      Fallible.acquire
      let h ← Fallible.spawn (branchCall tx i b)
      let hs ← dispatch tx rest
      return h :: hs

/-- The join loop: a task that failed or panicked fails its branch. -/
def joinAll : List (Nat × Nat) → GlobalTxn → Server GlobalTxn
  | [], tx => return tx
  | (i, h) :: rest, tx => do
    let ok := (← Fallible.join h).getD false
    if ok then
      joinAll rest (tx.setStatus i .succeed)
    else
      joinAll rest (tx.setStatus i .failed)

section Operations

variable [SerdeJson]

def start (gid mode : String) (payload : Bytes) : Server String := do
  let gid ← if gid.isEmpty then Fallible.newId else pure gid
  let now ← Fallible.now
  let mode := if mode.isEmpty then "saga" else mode
  save (GlobalTxn.new gid mode payload now)
  return gid

def submit (exec : ExecConfig) (gid : String) : Server Unit := do
  let some tx ← load gid | return ()
  -- mark committing first
  let tx := { tx with status := .committing, updatedUnix := ← Fallible.now }
  save tx
  -- execute prepared branches with concurrency limit
  Fallible.semaphore (max exec.branchParallelism 1)
  let handles ← dispatch tx tx.branches.zipIdx
  let tx ← joinAll ((preparedIndices tx.branches).zip handles) tx
  let tx := { tx with updatedUnix := ← Fallible.now }
  -- persist branch updates after execution loop
  save tx
  -- finalize global status
  let tx := { tx with status := finalStatus tx.branches }
  let tx := { tx with updatedUnix := ← Fallible.now }
  save tx

/-- The naive rollback of `abort`: everything that has not succeeded has failed. -/
def failUnlessSucceed (b : BranchTxn) : BranchTxn :=
  if b.status ≠ .succeed then { b with status := .failed } else b

def abort (gid : String) : Server Unit := do
  let some tx ← load gid | return ()
  let tx := { tx with branches := tx.branches.map failUnlessSucceed }
  let tx := { tx with status := .aborted, updatedUnix := ← Fallible.now }
  save tx

def addBranch (gid branchId action : String) : Server Unit := do
  let some tx ← load gid | return ()
  if !(tx.branches.any fun b => b.branchId == branchId) then
    let branch : BranchTxn := { branchId, action, status := .prepared }
    let tx := { tx with branches := tx.branches ++ [branch] }
    let tx := { tx with updatedUnix := ← Fallible.now }
    save tx

/-- What `branchSucceed` and `branchFail` share. -/
def setBranch (status : BranchStatus) (gid branchId : String) : Server Unit := do
  let some tx ← load gid | return ()
  let some branches := updateFirst (fun b => b.branchId == branchId) (fun b => { b with status := status }) tx.branches
    | return ()
  let tx := { tx with branches := branches }
  let tx := { tx with updatedUnix := ← Fallible.now }
  save tx

def branchSucceed (gid branchId : String) : Server Unit := setBranch .succeed gid branchId

def branchFail (gid branchId : String) : Server Unit := setBranch .failed gid branchId

end Operations

end Seata
