import Seata.Server
import Seata.Async.Retry

/-!
# The loop of a branch task

A branch task posts its call until a reply is a success, or until a failed attempt ends when `timeoutToFailSecs` have
passed; between two attempts it sleeps `retryIntervalSecs` and a jitter that is computed from the bytes of the branch
id. Times are nanoseconds, as in a `Duration`.

- `branch_loop_ends`: with which attempt the loop ends and how, and within which bounds;
- `task_retries`: the tasks of a handler in a pool make the attempts of their loops.
-/

namespace Seata

open Async

/-- What the client gets for a post. -/
inductive Reply where
  | error
  | status (code : Nat)
  deriving DecidableEq, Repr

/-- An answer whose `status().is_success()`. -/
def Reply.isSuccess : Reply → Bool
  | .error => false
  | .status code => decide (200 ≤ code ∧ code < 300)

/-- The jitter of a branch, up to 299 ms: the sum of the bytes wraps. -/
def jitterMs (branchId : String) : Nat :=
  let sum : UInt32 := (asBytes branchId).foldl (fun sum b => sum + b.toUInt32) 0
  (sum % 300).toNat

example : jitterMs "b1" = 147 := by decide

namespace ExecConfig

/-- `Duration::from_secs(retry_interval_secs) + Duration::from_millis(jitter_ms)` -/
def pause (exec : ExecConfig) (branchId : String) : Nat := exec.retryIntervalSecs * 10 ^ 9 + jitterMs branchId * 10 ^ 6

/-- `Duration::from_secs(timeout_to_fail_secs)` -/
def timeoutToFail (exec : ExecConfig) : Nat := exec.timeoutToFailSecs * 10 ^ 9

/-- `Duration::from_secs(request_timeout_secs)` -/
def requestTimeout (exec : ExecConfig) : Nat := exec.requestTimeoutSecs * 10 ^ 9

end ExecConfig

/-- The attempts of a branch task that gets these replies, each after its time. -/
def attempts (replies : Nat → Reply × Nat) (n : Nat) : Attempt := ⟨(replies n).1.isSuccess, (replies n).2⟩

/-- The loop of the task of a branch. -/
def branchLoop (exec : ExecConfig) (branchId : String) (replies : Nat → Reply × Nat) (fuel : Nat) : Option Retried :=
  retry (exec.pause branchId) exec.timeoutToFail (attempts replies) fuel 0 0

section Loop

variable (exec : ExecConfig) (branchId : String) (replies : Nat → Reply × Nat)

/-- The `n`-th attempt is a success: it is answered, with a status code of success. -/
def Succeeds (n : Nat) : Prop := ∃ code, (replies n).1 = .status code ∧ 200 ≤ code ∧ code < 300

/-- How long after the start of the loop its `n`-th attempt ends, if it makes that many. -/
def endsAfter (n : Nat) : Nat := endsAt (exec.pause branchId) (attempts replies) n

variable {exec branchId replies}

theorem isSuccess_iff {n : Nat} : (replies n).1.isSuccess = true ↔ Succeeds replies n := by
  rw [Succeeds]
  cases (replies n).1 <;> simp [Reply.isSuccess]

theorem isSuccess_eq_false {n : Nat} : (replies n).1.isSuccess = false ↔ ¬ Succeeds replies n := by
  rw [← isSuccess_iff, Bool.not_eq_true]

theorem goesOn_iff {n : Nat} : GoesOn (exec.pause branchId) exec.timeoutToFail (attempts replies) n ↔
    ¬ Succeeds replies n ∧ endsAfter exec branchId replies n < exec.timeoutToFail :=
  and_congr_left fun _ => isSuccess_eq_false

/-- **With which attempt the loop ends**: the first that succeeds, or that fails and ends at the timeout or later. -/
theorem branchLoop_iff {fuel : Nat} {r : Retried} : branchLoop exec branchId replies fuel = some r ↔
    ∃ m, m < fuel ∧ (∀ k < m, ¬ Succeeds replies k ∧ endsAfter exec branchId replies k < exec.timeoutToFail) ∧
      (Succeeds replies m ∨ exec.timeoutToFail ≤ endsAfter exec branchId replies m) ∧
      r = ⟨(replies m).1.isSuccess, m + 1, endsAfter exec branchId replies m⟩ := by
  rw [branchLoop, retry_iff]
  simp only [goesOn_iff, not_and_or, not_not, Nat.not_lt]
  rfl

end Loop

/-! ## The tasks in a pool -/

/-- The tasks of the branch calls are the loops over these replies. -/
def World.Retries (w : World) (exec : ExecConfig) (replies : BranchCall → Nat → Reply × Nat) : Prop :=
  ∀ c, ∃ fuel r, branchLoop exec c.branchId (replies c) fuel = some r ∧ w.call c = r.outcome

/-- **A branch task that has ended** has made the attempts of its loop and answers its result. -/
theorem task_retries [SerdeJson] {exec : ExecConfig} {st : Kv} {rs : List (SagaRequest × World)} {tr : Log}
    {s : Handlers Unit} (h : Run (managing exec st rs) tr s) {i : Nat} {q : SagaRequest} {w : World}
    (hi : rs[i]? = some (q, w)) {replies : BranchCall → Nat → Reply × Nat} (hw : w.Retries exec replies) :
    ∃ p, s.procs[i]? = some p ∧ ∀ t ∈ p.loc.tasks, t.finished = true → ∃ fuel r,
      branchLoop exec t.call.branchId (replies t.call) fuel = some r ∧ t.posted + 1 = r.attempts ∧
        (w.call t.call).verdict = some r.verdict := by
  obtain ⟨p, hp, ha⟩ := h.attempted (i := i) (x := ((q.handler exec).run, w)) (by rw [List.getElem?_map, hi]; rfl)
  refine ⟨p, hp, fun t ht hf => ?_⟩
  obtain ⟨fuel, r, hr, hcall⟩ := hw t.call
  obtain ⟨m, -, -, -, hm⟩ := branchLoop_iff.mp hr
  have hposted : t.posted = (w.call t.call).failures := (ha.tasks t ht).2 hf
  refine ⟨fuel, r, hr, ?_, by rw [hcall, r.verdict_outcome]⟩
  rw [hposted, hcall, Retried.outcome, hm]
  rfl

end Seata
