import Seata.Evidence
import Seata.Async.Counters

/-!
# The metrics of the branch calls

A branch task that succeeds counts itself, and the submit that joins a task without a success counts that. Other
submits count at the same time, and a submit may be cut off before it has joined all of its tasks.

- `metrics_account`: **no branch call is counted twice or under a wrong outcome**, in any interleaving of calls of any
  front end, and once all handlers have returned every branch call is counted.
-/

namespace Seata

open Async

/-- The metrics of a saga manager; of the latencies it matters only how many there are. -/
structure SagaMetrics where
  branchSuccessTotal : Nat
  branchFailureTotal : Nat
  branchLatencySeconds : Nat
  deriving DecidableEq, Repr

/-- A branch call is counted, and its latency observed. -/
def SagaMetrics.inc (m : SagaMetrics) : Bool → SagaMetrics
  | true => { m with
      branchSuccessTotal := m.branchSuccessTotal + 1, branchLatencySeconds := m.branchLatencySeconds + 1 }
  | false => { m with
      branchFailureTotal := m.branchFailureTotal + 1, branchLatencySeconds := m.branchLatencySeconds + 1 }

/-- The metrics after all that was counted. -/
def metricsOf (ns : List (Nat × Bool)) : SagaMetrics := ns.foldl (fun m n => m.inc n.2) ⟨0, 0, 0⟩

theorem foldl_inc : ∀ (ns : List (Nat × Bool)) (m : SagaMetrics), ns.foldl (fun m n => m.inc n.2) m =
    ⟨m.branchSuccessTotal + ns.countP Prod.snd, m.branchFailureTotal + ns.countP (fun n => !n.2),
      m.branchLatencySeconds + ns.length⟩
  | [], m => rfl
  | (_, ok) :: ns, m => by
    rw [List.foldl_cons, foldl_inc ns]
    cases ok <;> simp [SagaMetrics.inc] <;> omega

theorem metricsOf_eq (ns : List (Nat × Bool)) :
    metricsOf ns = ⟨ns.countP Prod.snd, ns.countP (fun n => !n.2), ns.length⟩ := by
  rw [metricsOf, foldl_inc]
  simp

theorem accepted_eq (e : World) (t : Async.Task BranchCall) : t.accepted e = succeeds e t.call := by
  rw [Task.accepted, succeeds]
  rcases (e.call t.call).verdict with _ | _ | _ <;> rfl

section Metrics

variable [SerdeJson]

theorem joins_call (exec : ExecConfig) (c : ApiCall) : (c.handler exec).Joins [] := by
  rw [handler_eq]
  exact (joins_handler exec c.operation).map _

/-- **The metrics account for every branch call**: at any time the successes are those that the participants have
answered, and not more is counted than was called; once all handlers have returned all calls are counted; and a submit
that has returned has counted each of its own calls once, under its outcome. -/
theorem metrics_account {exec : ExecConfig} {st : Kv} {cs : List (ApiCall × World)} {tr : Log}
    {s : Pool Bytes Bytes BranchCall Error ApiReply} {ns : List (Nat × Bool)}
    (h : Counting (arriving exec st cs) tr s ns) :
    (metricsOf ns).branchSuccessTotal = successes (fun _ => true) tr ∧
      (metricsOf ns).branchSuccessTotal + (metricsOf ns).branchFailureTotal = (metricsOf ns).branchLatencySeconds ∧
      (metricsOf ns).branchLatencySeconds ≤ starts (fun _ => true) tr ∧
      ((∀ p ∈ s.procs, ∃ r, p.prog = .ret r) → (metricsOf ns).branchLatencySeconds = starts (fun _ => true) tr) ∧
      ∀ (i : Nat) (p : Proc Bytes Bytes BranchCall Error ApiReply) (r : ApiReply) (c : ApiCall × World),
        s.procs[i]? = some p → p.prog = .ret r → cs[i]? = some c →
          ns.count (i, true) = (spawnsOf i tr).countP (succeeds c.2) ∧
          ns.count (i, false) = (spawnsOf i tr).countP fun x => !succeeds c.2 x := by
  have hjoins : ∀ p ∈ cs.map fun c => (c.1.handler exec, c.2), p.1.Joins [] := by
    intro p hp
    obtain ⟨c, -, rfl⟩ := List.mem_map.mp hp
    exact joins_call exec c.1
  obtain ⟨hle, heq⟩ := h.length_le hjoins
  rw [metricsOf_eq]
  refine ⟨h.successes, ?_, hle, heq, fun i p r c hp hr hc => ?_⟩
  · rw [List.length_eq_countP_add_countP Prod.snd]
    simp
  · obtain ⟨n, hn⟩ := h.tallied hjoins i p hp
    obtain ⟨x, hs, hx, hjoining⟩ := h.run.joining hjoins i p hp
    obtain rfl : x = (c.1.handler exec, c.2) := by
      rw [List.getElem?_map, hc] at hx
      exact (Option.some.inj hx).symm
    obtain ⟨hsuccess, hfailure⟩ := hn.returned hr
    rw [hsuccess, hfailure, ← hjoining.calls, List.countP_map, List.countP_map, hjoining.same]
    exact ⟨List.countP_congr fun t _ => by rw [accepted_eq, Function.comp],
      List.countP_congr fun t _ => by rw [accepted_eq, Function.comp]⟩

end Metrics

section Example

attribute [local instance] Json.serdeJson

/-- A transaction with three branches. -/
def threeBranches : GlobalTxn :=
  ⟨"g", "saga", .submitted, [], [⟨"b", "u", .prepared⟩, ⟨"c", "u", .prepared⟩, ⟨"d", "u", .prepared⟩], 1, 1⟩

/-- One participant accepts in its second attempt, one never does, and the task of the third one panics. -/
def threeOutcomes : World :=
  { (Env.calm 2 : World) with call := fun x =>
      if x.branchId = "b" then ⟨1, .success⟩ else if x.branchId = "c" then ⟨0, .giveUp⟩ else ⟨0, .panic⟩ }

def submitThree : List (ApiCall × World) := [(.http (.submit ⟨"g"⟩), threeOutcomes)]

/-- The submit counts a success and two failures. -/
theorem metrics_account_mixed : ∃ tr s ns, Counting (arriving .default (holding threeBranches) submitThree) tr s ns ∧
    (spawnsOf 0 tr).map (·.branchId) = ["b", "c", "d"] ∧ ns.count (0, true) = 1 ∧ ns.count (0, false) = 2 ∧
      metricsOf ns = ⟨1, 2, 3⟩ := by
  obtain ⟨tr, s, h, hq⟩ := run_of_exec (s := arriving .default (holding threeBranches) submitThree)
    [.main 0, .main 0, .main 0, .main 0, .main 0, .main 0, .task 0 0, .task 0 0, .main 0, .main 0, .task 0 1, .main 0,
      .main 0, .task 0 2, .main 0, .main 0, .main 0, .main 0, .main 0, .main 0, .main 0]
    (fun x => decide ((spawnsOf 0 x.1).map (·.branchId) = ["b", "c", "d"] ∧ successes (fun _ => true) x.1 = 1 ∧
      starts (fun _ => true) x.1 = 3 ∧ (∀ p ∈ x.2.procs, p.prog.awaits = none) ∧ Replied x.2 0 (.done none)))
    (by decide +kernel)
  obtain ⟨hspawns, hsuccesses, hstarts, hended, r, ⟨p, hp, hr⟩, -⟩ := of_decide_eq_true hq
  obtain ⟨ns, hns⟩ := h.counting
  obtain ⟨htotal, hsum, -, hall, heach⟩ := metrics_account hns
  have hreturned (p) (hp : p ∈ s.procs) : ∃ r, p.prog = .ret r := by
    have hawaits := hended p hp
    cases hprog : p.prog with
    | ret r => exact ⟨r, rfl⟩
    | ask o k =>
      rw [hprog] at hawaits
      cases hawaits
  have hlatency := (hall hreturned).trans hstarts
  have hsuccess := htotal.trans hsuccesses
  have hmetrics : metricsOf ns = ⟨1, 2, 3⟩ := by
    cases hm : metricsOf ns
    simp only [hm] at hsuccess hsum hlatency
    simp only [SagaMetrics.mk.injEq]
    omega
  have hoks : (spawnsOf 0 tr).map (succeeds threeOutcomes) = [true, false, false] := by
    have hok : succeeds threeOutcomes = (fun b => b == "b") ∘ BranchCall.branchId := by
      funext x
      simp only [succeeds, threeOutcomes, Function.comp]
      split_ifs <;> simp_all [Outcome.verdict]
    rw [hok, ← List.map_map, hspawns]
    rfl
  have hcount (q : Bool → Bool) :
      (spawnsOf 0 tr).countP (fun x => q (succeeds threeOutcomes x)) = [true, false, false].countP q := by
    rw [← hoks, List.countP_map]
    rfl
  obtain ⟨haccepted, hfailed⟩ := heach 0 p r _ hp hr rfl
  exact ⟨tr, s, ns, hns, hspawns, haccepted.trans (hcount id), hfailed.trans (hcount not), hmetrics⟩

end Example

end Seata
