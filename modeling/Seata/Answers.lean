import Seata.Clients
import Seata.Handlers
import Seata.Parallelism

/-!
# Every call is answered

All handlers of the server are orderly (`orderly_handler`) when a semaphore can have as many permits as the parallelism
asks for: only a submit makes a semaphore, it has a permit at least, and its tasks give their permits back.

- `calls_answered`: **whatever calls are in flight, in whatever schedule and with whatever faults**, no run goes on for
  ever, and nothing is left to do only when every call has its reply and every task has ended.
-/

namespace Seata

open Async

section Answers

variable [SerdeJson]

/-! ## Orderly handlers -/

variable {exec : ExecConfig}

/-- A submit of a transaction that is not stored returns at once. -/
theorem orderly_submit (hmax : max 1 exec.branchParallelism ≤ maxPermits) (gid : String) :
    Fallible.Orderly (submit exec gid) := by
  obtain ⟨K, hK, hd⟩ := disciplined_submit exec gid
  rw [hK]
  refine closed_load Fallible.closed_orderly fun o => ?_
  cases o with
  | some tx => exact (hd tx).orderly (by omega) (by omega) rfl
  | none =>
    have hrun := congrArg ExceptT.run hK
    rw [run_load] at hrun
    have hnone : (K none).run = .ret (.ok ()) := (congrFun (eq_of_heq (Prog.ask.inj hrun).2) (.ok none)).symm
    rw [Fallible.Orderly, hnone]
    exact .ret

/-- **Every handler is orderly.** -/
theorem orderly_handler (hmax : max 1 exec.branchParallelism ≤ maxPermits) (c : ApiCall) :
    (c.handler exec).Orderly := by
  rw [handler_eq]
  exact Prog.Orderly.map _ (closed_program Fallible.closed_orderly (orderly_submit hmax) c.operation)

theorem ordered_arriving (hmax : max 1 exec.branchParallelism ≤ maxPermits) (st : Kv) (cs : List (ApiCall × World)) :
    ∀ p ∈ (arriving exec st cs).procs, p.Ordered := by
  intro p hp
  obtain ⟨x, hx, rfl⟩ := List.mem_map.mp hp
  obtain ⟨c, -, rfl⟩ := List.mem_map.mp hx
  exact ordered_init (orderly_handler hmax c.1) _

/-! ## Answers -/

/-- **Every call is answered.** Whatever calls are in flight, and whichever of their storage calls fail: no run goes on
for ever; and when a semaphore can have as many permits as the parallelism asks for, from every state that is reached
the run can go on until every call has its reply and every task has ended, and a state without a further turn is one in
which they all have. -/
theorem calls_answered (exec : ExecConfig) (st : Kv) (cs : List (ApiCall × World)) {tr : Log}
    {s : Pool Bytes Bytes BranchCall Error ApiReply} (h : Run (arriving exec st cs) tr s) :
    (¬ ∃ f : Nat → Pool Bytes Bytes BranchCall Error ApiReply, f 0 = s ∧ ∀ n, (f (n + 1)).Next (f n)) ∧
      (max 1 exec.branchParallelism ≤ maxPermits →
        (∃ tr' s', Run s tr' s' ∧ s'.Ended) ∧
        ((∀ t, s.step t = none) ↔ s.Ended) ∧
        ∀ i p, s.procs[i]? = some p →
          (∃ r, p.prog = .ret r) ∨ (s.step (.main i)).isSome ∨ ∃ j, s.Waits i j) := by
  refine ⟨?_, fun hmax => ?_⟩
  · rintro ⟨f, -, hf⟩
    exact (wellFounded_iff_isEmpty_descending_chain.mp wellFounded_next).false ⟨f, hf⟩
  have hordered := h.ordered (ordered_arriving hmax st cs)
  refine ⟨?_, final_iff_ended hordered, fun i p hp => ?_⟩
  · obtain ⟨tr', s', hrun, hfinal⟩ := exists_final s
    exact ⟨tr', s', hrun, (final_iff_ended (hrun.ordered hordered)).mp hfinal⟩
  · rcases (hordered p (List.mem_of_getElem? hp)).progress with hret | hready | ⟨j, hwait⟩
    · exact .inl hret
    · exact .inr (.inl ((step_main_isSome hp).mpr hready))
    · exact .inr (.inr ⟨j, hwait.waits hp⟩)

end Answers

section Example

attribute [local instance] Json.serdeJson

/-- A submit that waits for its branch task can go on, and then everything ends. -/
theorem calls_answered_waiting : ∃ tr s tr' s', Run (arriving .default ∅ mixedCalls) tr s ∧
    s.step (.main 2) = none ∧ Run s tr' s' ∧ s'.Ended := by
  obtain ⟨tr, s, h, hq⟩ := run_of_exec (s := arriving .default ∅ mixedCalls)
    [.main 0, .main 0, .main 1, .main 1, .main 1, .main 2, .main 2, .main 2, .main 2, .main 2, .main 2]
    (fun x => (x.2.step (.main 2)).isNone) (by decide +kernel)
  obtain ⟨-, hanswered⟩ := calls_answered .default ∅ mixedCalls h
  obtain ⟨⟨tr', s', hrun, hended⟩, -⟩ := hanswered (by decide)
  exact ⟨tr, s, tr', s', h, Option.isNone_iff_eq_none.mp hq, hrun, hended⟩

end Example

end Seata
