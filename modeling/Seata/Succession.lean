import Seata.Ownership
import Seata.Service
import Seata.Async.Sequence

/-!
# Clients that take turns

Requests on a transaction that overlap lose each other's updates. Clients that take turns on it, so that a call arrives
when the one before has its reply, see the ledger: whatever calls on other transactions are in flight in the meantime,
whoever reads, and whichever of these others time out. A request that times out is not over when its client has the
reply, so none of the requests on the transaction may.

- `Ledger.replies`: the replies of the ledger to calls, one after the other;
- `turns_refine`: **the replies to these calls are those of the ledger**, which serves nothing else.
-/

namespace Seata

open Async

namespace Ledger

/-- The results of operations, one after the other, and the ledger that they leave. -/
def performAll (l : Ledger) : List (Operation × World) → List (Except Error Outcome) × Ledger
  | [] => ([], l)
  | o :: os => ((l.perform o).1 :: ((l.perform o).2.performAll os).1, ((l.perform o).2.performAll os).2)

/-- The replies to calls, one after the other. -/
def replies [SerdeJson] (l : Ledger) (cs : List (ApiCall × World)) : List ApiReply :=
  List.zipWith (fun c r => c.1.reply r) cs (l.performAll (operations cs)).1

end Ledger

section Succession

variable [SerdeJson]

/-- **Operations one after the other** are those of the ledger. -/
theorem Refines.performAll (exec : ExecConfig) : ∀ {os : List (Operation × World)} {st : Kv} {l : Ledger},
    Refines st l → (∀ o ∈ os, o.2.Reliable) →
      (Script.execAll (os.map fun o => script (o.1.program exec) (.init o.2)) st).1.map Prod.fst = (l.performAll os).1 ∧
        Refines (Script.execAll (os.map fun o => script (o.1.program exec) (.init o.2)) st).2 (l.performAll os).2
  | [], _, _, h, _ => ⟨rfl, h⟩
  | o :: os, st, l, h, hw => by
    obtain ⟨hresult, h'⟩ := h.perform exec o (hw o List.mem_cons_self)
    obtain ⟨hresults, h''⟩ := Refines.performAll exec h' fun o ho => hw o (List.mem_cons_of_mem _ ho)
    exact ⟨congrArg₂ List.cons hresult hresults, h''⟩

/-- Handlers that have replied have results of which these are the replies. -/
theorem exists_results {cs : List (ApiCall × World)} {q : Handlers Outcome} :
    ∀ {order : List Nat} {calls : List (ApiCall × World)} {rs : List ApiReply},
      order.map (cs[·]?) = calls.map some → order.map (replyAt (q.replying (replyOf cs))) = rs.map some →
      ∃ bs : List (Except Error Outcome × Core BranchCall Error),
        order.map (q.todos[·]?) = bs.map (fun b => some (.done b)) ∧
          rs = List.zipWith (fun c b => c.1.reply b.1) calls bs
  | [], calls, rs, hcalls, hrs => by
    obtain rfl := List.map_eq_nil_iff.mp hcalls.symm
    obtain rfl := List.map_eq_nil_iff.mp hrs.symm
    exact ⟨[], rfl, rfl⟩
  | i :: order, c :: calls, r :: rs, hcalls, hrs => by
    obtain ⟨hc, hcalls⟩ := List.cons.inj hcalls
    obtain ⟨hr, hrest⟩ := List.cons.inj hrs
    obtain ⟨p, a, hp, ha, rfl⟩ := ret_replying_iff.mp (replyAt_eq_some.mp hr)
    obtain ⟨bs, hbs, rfl⟩ := exists_results hcalls hrest
    refine ⟨(a, p.loc.core) :: bs, ?_, ?_⟩
    · rw [List.map_cons, List.map_cons, getElem?_todos hp ha, hbs]
    · simp only [List.zipWith_cons_cons, replyOf, hc]

/-- Calls that take turns on a transaction see the ledger, when no call times out. -/
theorem turns_of_run (exec : ExecConfig) {st : Kv} {l : Ledger} (hst : Refines st l) (cs : List (ApiCall × World))
    (g : String) (hg : ∀ i g', transactionOf cs i = some g' → g' = g ∨ ¬ Entangled g' g) {order : List Nat}
    (hnodup : order.Nodup) (hon : ∀ i ∈ order, transactionOf cs i = some g)
    (hall : ∀ i, transactionOf cs i = some g → isRequest cs i = true → i ∈ order) {calls : List (ApiCall × World)}
    (hcalls : order.map (cs[·]?) = calls.map some) (hw : ∀ c ∈ calls, c.2.Reliable) {tr : Log}
    {s : Pool Bytes Bytes BranchCall Error ApiReply} (h : Run (arriving exec st cs) tr s) (hseq : InSequence order tr)
    {rs : List ApiReply} (hrs : order.map (replyAt s) = rs.map some) :
    rs = l.replies calls ∧ record s.store g = (l.performAll (operations calls)).2.records g ∧
      ∀ b p, (s.store.lookup (asBytes (Barrier.key g b p))).isSome ↔
        asBytes (Barrier.key g b p) ∈ (l.performAll (operations calls)).2.marks := by
  obtain ⟨s', hrun, hprocs, hstore⟩ := calls_isolated exec hst.sound cs g hg (I := fun i => decide (i ∈ order))
    (fun i hi => hon i (of_decide_eq_true hi)) (fun i hi hr => decide_eq_true (hall i hi hr)) h
  rw [arriving_eq] at hrun
  obtain ⟨q, hq, rfl⟩ := run_replying_iff.mp hrun
  have hrs' : order.map (replyAt (q.replying (replyOf cs))) = rs.map some := by
    rw [← hrs]
    refine List.map_congr_left fun i hi => ?_
    rw [replyAt, replyAt, hprocs i (decide_eq_true hi)]
  obtain ⟨bs, hbs, rfl⟩ := exists_results hcalls hrs'
  -- the scripts of these calls are executed one after the other
  have hscripts : order.map ((operating exec st (operations cs)).todos[·]?) =
      ((operations calls).map fun o => script (o.1.program exec) (.init o.2)).map some := by
    have hmap := congrArg (List.map (Option.map fun c : ApiCall × World =>
      script (c.1.operation.program exec) (.init c.2))) hcalls
    simpa [todos_operating, operations, Function.comp_def] using hmap
  have hexec := hq.interleaving.in_sequence hnodup hseq hscripts hbs
  have hreliable : ∀ o ∈ operations calls, o.2.Reliable := by
    intro o ho
    obtain ⟨c, hc, rfl⟩ := List.mem_map.mp ho
    exact hw c hc
  obtain ⟨hresults, hrefines⟩ := hst.performAll exec hreliable
  rw [show (operating exec st (operations cs)).store = st from rfl] at hexec
  rw [hexec] at hresults hrefines
  have hlookup (k : Bytes) (hk : Owned g k) : s.store.lookup k = q.store.lookup k := (hstore k hk).symm
  refine ⟨?_, ?_, fun b p => ?_⟩
  · rw [Ledger.replies, ← hresults, List.zipWith_map_right]
  · rw [← hrefines.records, record, record, hlookup _ (.inl rfl)]
  · rw [← hrefines.marks, hlookup _ (.inr ⟨b, p, rfl⟩)]

/-- **Clients that take turns on a transaction see the ledger.** The calls of `order` are the requests on it, and any
calls that read it; they come one after the other, and all of them have their replies in time. Meanwhile any calls on
other transactions are in flight, and others that read this one, and any of these may time out. -/
theorem turns_refine (exec : ExecConfig) {st : Kv} {l : Ledger} (hst : Refines st l) (cs : List (ApiCall × World))
    (g : String) (hg : ∀ i g', transactionOf cs i = some g' → g' = g ∨ ¬ Entangled g' g) {order : List Nat}
    (hnodup : order.Nodup) (hon : ∀ i ∈ order, transactionOf cs i = some g)
    (hall : ∀ i, transactionOf cs i = some g → isRequest cs i = true → i ∈ order) {calls : List (ApiCall × World)}
    (hcalls : order.map (cs[·]?) = calls.map some) (hw : ∀ c ∈ calls, c.2.Reliable) {tr : Log}
    {b : Pool Bytes Bytes BranchCall Error ApiReply} (h : TimedRun exec st cs tr b) (hseq : InSequence order tr)
    {rs : List ApiReply} (hrs : order.map (replyAt b) = rs.map some) (hintime : requestTimeout ∉ rs) :
    rs = l.replies calls ∧ record b.store g = (l.performAll (operations calls)).2.records g ∧
      ∀ br p, (b.store.lookup (asBytes (Barrier.key g br p))).isSome ↔
        asBytes (Barrier.key g br p) ∈ (l.performAll (operations calls)).2.marks := by
  obtain ⟨s, hrun, hstore, hreplies⟩ := timed_refines h
  -- these calls have the same replies in the run without timeouts
  have hrs' : order.map (replyAt s) = rs.map some := by
    rw [← hrs]
    refine List.map_congr_left fun i hi => (hreplies i).resolve_right fun hlate => hintime ?_
    have hmem : replyAt b i ∈ rs.map some := hrs ▸ List.mem_map_of_mem hi
    obtain ⟨r, hr, hri⟩ := List.mem_map.mp hmem
    rwa [Option.some.inj (hlate.1.symm.trans hri.symm)]
  rw [← hstore]
  exact turns_of_run exec hst cs g hg hnodup hon hall hcalls hw hrun hseq hrs'

end Succession

section Example

attribute [local instance] Json.serdeJson

/-- Three clients take turns on a transaction. One of them tries a branch of another transaction in the meantime, and a
fourth one reads in the middle of the submit. -/
def takingTurns : List (ApiCall × World) :=
  [(.http (.start ⟨some "g", none, some [1]⟩), .calm 1), (.http (.branchTry ⟨"h", "b", "http://b"⟩), .calm 2),
    (.grpc (.addBranch ⟨"g", "b", "http://b"⟩), .calm 3), (.jsonrpc ⟨"2.0", "submit", some (.gid "g"), .null⟩, .calm 4),
    (.http (.getTx "g"), .calm 5)]

/-- The branch that is tried times out with its mark put and its record not yet loaded. -/
theorem turns_refine_takingTurns : ∃ tr b calls, TimedRun .default ∅ takingTurns tr b ∧
    Replied b 1 (.failed "") ∧ [0, 2, 3].map (takingTurns[·]?) = calls.map some ∧
      [0, 2, 3].map (replyAt b) = (Ledger.empty.replies calls).map some ∧
        record b.store "g" = (Ledger.empty.performAll (operations calls)).2.records "g" := by
  have hplain : ∀ c ∈ takingTurns, ∀ g' ∈ c.1.operation.gid c.2, Plain g' := by
    unfold Plain
    decide
  have hapart := apart_of_plain (g := "g") (by simp [Plain]) hplain
  have hon : ∀ i ∈ [0, 2, 3], transactionOf takingTurns i = some "g" := by
    simp only [List.forall_mem_cons]
    exact ⟨rfl, rfl, rfl, by simp⟩
  have hall (i : Nat) (h : transactionOf takingTurns i = some "g") (hr : isRequest takingTurns i = true) :
      i ∈ [0, 2, 3] := by
    rcases i with _ | _ | _ | _ | _ | i
    · decide
    · exact absurd (Option.some.inj h) (by decide)
    · decide
    · decide
    · cases hr
    · cases h
  obtain ⟨tr, b, htimed, hq⟩ := timedRun_of_exec .default ∅ takingTurns 1 rfl rfl
    [.main 0, .main 1, .main 0, .main 2, .main 2, .main 1]
    [.main 2, .main 3, .main 3, .main 3, .main 4, .main 3, .main 3, .main 3, .task 3 0, .main 3, .main 3, .main 3,
      .main 3, .main 3]
    (fun x => decide (InSequence [0, 2, 3] x.1 ∧ Replied x.2 1 (.failed "") ∧ Replied x.2 0 (.done (some "g")) ∧
      Replied x.2 2 (.done none) ∧ Replied x.2 3 (.done none))) (by decide +kernel)
  obtain ⟨hseq, hlate, hstart, hadd, hsubmit⟩ := of_decide_eq_true hq
  obtain ⟨r₀, h₀, m₀⟩ := replied_iff_replyAt.mp hstart
  obtain ⟨r₂, h₂, m₂⟩ := replied_iff_replyAt.mp hadd
  obtain ⟨r₃, h₃, m₃⟩ := replied_iff_replyAt.mp hsubmit
  have hrs : [0, 2, 3].map (replyAt b) = [r₀, r₂, r₃].map some := by simp [h₀, h₂, h₃]
  have hintime : requestTimeout ∉ [r₀, r₂, r₃] := by
    intro hmem
    simp only [List.mem_cons, List.not_mem_nil, or_false] at hmem
    rcases hmem with rfl | rfl | rfl
    · cases m₀
    · cases m₂
    · cases m₃
  have hcalls : [0, 2, 3].map (takingTurns[·]?) = ([0, 2, 3].filterMap (takingTurns[·]?)).map some := rfl
  obtain ⟨hreplies, hrecord, -⟩ := turns_refine .default refines_empty takingTurns "g" hapart (by decide) hon hall
    hcalls (by simp [takingTurns, Env.Reliable, Env.calm]) htimed hseq hrs hintime
  exact ⟨_, b, _, htimed, hlate, hcalls, by rw [hrs, hreplies], hrecord⟩

end Example

end Seata
