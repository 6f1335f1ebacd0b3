import Seata.Answers
import Seata.Restarts

/-!
# Requests that time out

A submit takes longer than the http server lets it as soon as a participant has to be called again. Its client gets
another answer than the submit would have given, and others see what it has done so far.

- `timeouts_sound`: **timeouts do no harm**: the records keep their integrity, every outcome has its evidence, only what
  was asked for is posted, whoever gets another answer can rely on it, and everything comes to an end.
-/

namespace Seata

open Async

section Timeouts

variable [SerdeJson]

variable {exec : ExecConfig} {st : Kv} {cs : List (ApiCall × World)} {tr : Log}
  {b : Pool Bytes Bytes BranchCall Error ApiReply}

/-- Only calls are answered. -/
theorem call_of_replied (h : Run (arriving exec st cs) tr b) {i : Nat} {m : Meaning} (hm : Replied b i m) :
    ∃ c, cs[i]? = some c := by
  obtain ⟨r, ⟨p, hp, -⟩, -⟩ := hm
  have hlength := h.interleaving.length
  simp only [Pool.todos, arriving, Pool.init, List.length_map] at hlength
  exact ⟨_, List.getElem?_eq_getElem (hlength ▸ (List.getElem?_eq_some_iff.mp hp).1)⟩

/-- A handler whose reply is not that of a timeout has given it. -/
theorem replied_of_timed {s : Pool Bytes Bytes BranchCall Error ApiReply} {i : Nat} {m : Meaning}
    (hreply : replyAt s i = replyAt b i ∨ replyAt b i = some requestTimeout ∧ ∃ c, cs[i]? = some c ∧ c.1.timed)
    (hm : Replied b i m) (hne : m ≠ .failed "") : Replied s i m := by
  obtain ⟨r, hr, rfl⟩ := replied_iff_replyAt.mp hm
  refine replied_iff_replyAt.mpr ⟨r, ?_, rfl⟩
  rcases hreply with heq | ⟨hlate, -⟩
  · rw [heq, hr]
  · obtain rfl := Option.some.inj (hr.symm.trans hlate)
    exact absurd rfl hne

/-- **Timeouts do no harm**, whichever calls time out and wherever: the store and the calls to the participants are
upright, whoever has read a record has read one of the transaction that he asked for, a start that was answered has been
stored, and when a semaphore can have as many permits as the parallelism asks for, from every state the run can go on
until every call has its reply and every task has ended. -/
theorem timeouts_sound (h : TimedRun exec ∅ cs tr b) :
    Upright (requestsOf cs) tr b.store ∧
      (∀ i v, Replied b i (.record v) → ∃ c g tx, cs[i]? = some c ∧ c.1.operation = .get g ∧ v = toVec tx ∧
        Integrity (requestsOf cs) g tx) ∧
      (∀ i g, Replied b i (.done (some g)) → ∃ tx, record b.store g = some tx) ∧
      (max 1 exec.branchParallelism ≤ maxPermits →
        (∃ tr' b', Run b tr' b' ∧ b'.Ended) ∧ ((∀ t, b.step t = none) ↔ b.Ended)) := by
  obtain ⟨s, hrun, hstore, hreplies⟩ := timed_refines h
  have hops := hrun
  rw [arriving_eq] at hops
  obtain ⟨q, hq, rfl⟩ := run_replying_iff.mp hops
  refine ⟨?_, fun i v hv => ?_, fun i g hg => ?_, fun hmax => ?_⟩
  · rw [← hstore]
    exact run_upright hq
  · exact replied_genuine hq (replied_of_timed (hreplies i) hv (by simp))
  · have hreplied := replied_of_timed (hreplies i) hg (by simp)
    obtain ⟨c, hc⟩ := call_of_replied hrun hreplied
    rw [← hstore]
    exact record_of_there (arriving_within sound_empty hrun).1 (there_of_acknowledged hrun hc (.inl hreplied))
  · have hordered := h.ordered (ordered_arriving hmax ∅ cs)
    obtain ⟨tr', b', hrun', hfinal⟩ := exists_final b
    exact ⟨⟨tr', b', hrun', (final_iff_ended (hrun'.ordered hordered)).mp hfinal⟩, final_iff_ended hordered⟩

end Timeouts

section Example

attribute [local instance] Json.serdeJson

/-- A submit times out while it waits for its task, and the task still calls the participant. -/
theorem timeouts_sound_mixed : ∃ tr b, TimedRun .default ∅ mixedCalls tr b ∧ Replied b 2 (.failed "") ∧
    (.task 2 0, .post ⟨"http://b", "g", "b", "saga", "AQI=", 0⟩ true) ∈ tr ∧
    Upright (requestsOf mixedCalls) tr b.store ∧
      ∃ tr' b', Run b tr' b' ∧ b'.Ended := by
  obtain ⟨tr, b, htimed, hq⟩ := timedRun_of_exec .default ∅ mixedCalls 2 rfl rfl
    [.main 0, .main 0, .main 1, .main 1, .main 1, .main 2, .main 2, .main 2, .main 2, .main 2, .main 2] [.task 2 0]
    (fun x => decide (Replied x.2 2 (.failed "") ∧
      (.task 2 0, .post ⟨"http://b", "g", "b", "saga", "AQI=", 0⟩ true) ∈ x.1)) (by decide +kernel)
  obtain ⟨hreplied, hpost⟩ := of_decide_eq_true hq
  obtain ⟨hupright, -, -, hlive⟩ := timeouts_sound htimed
  exact ⟨_, _, htimed, hreplied, hpost, hupright, (hlive (by decide)).1⟩

end Example

end Seata
