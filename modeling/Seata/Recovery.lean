import Seata.Restarts
import Seata.Resubmission
import Seata.Succession

/-!
# Recovery from a crash

A crash leaves transactions in the middle of a submit: their branches may have been called, and nobody has kept the
outcomes. Submitting such a transaction again decides it, also while calls on other transactions are in flight. A submit
that times out leaves it there as a crash does.

- `TimedEpochs`: the stores that crashes can leave, also when calls have timed out before them;
- `Sound.refines`: every sound store is the one of some ledger;
- `submit_recovers`: **a submit after the crash decides the transaction** as soon as it has its reply, unless it has
  timed out.
-/

namespace Seata

open Async

section Recovery

variable [SerdeJson]

/-- The server stops after each of these epochs, in which calls may time out, and this store is left. -/
inductive TimedEpochs (exec : ExecConfig) : List (List (ApiCall × World)) → Kv → Prop
  | nil : TimedEpochs exec [] ∅
  | next {epochs : List (List (ApiCall × World))} {st : Kv} {cs : List (ApiCall × World)} {tr : Log}
      {b : Pool Bytes Bytes BranchCall Error ApiReply} (before : TimedEpochs exec epochs st)
      (run : TimedRun exec st cs tr b) : TimedEpochs exec (epochs ++ [cs]) b.store

/-- Epochs without timeouts leave the same store. -/
theorem TimedEpochs.epochs {exec : ExecConfig} {epochs : List (List (ApiCall × World))} {st : Kv}
    (h : TimedEpochs exec epochs st) : ∃ tr b, Epochs ∅ (restarting exec epochs) tr b ∧ b.store = st := by
  induction h with
  | nil => exact ⟨_, _, .nil, rfl⟩
  | @next _ _ _ tr' _ _ run ih =>
    obtain ⟨tr, b, hbefore, rfl⟩ := ih
    obtain ⟨s, hrun, hstore, -⟩ := timed_refines run
    refine ⟨tr ++ behind b.procs.length tr', ⟨s.store, b.procs ++ s.procs⟩, ?_, hstore⟩
    rw [restarting, List.map_append]
    exact hbefore.next hrun

/-- A sound store has the records and marks of a ledger. -/
theorem Sound.refines {st : Kv} (h : Sound st) : ∃ l : Ledger, Refines st l :=
  ⟨⟨record st, st.keys⟩, h, fun _ => rfl, fun g b p => by rw [Finmap.mem_keys, ← Finmap.lookup_isSome]⟩

omit [SerdeJson] in
/-- What a submit makes of a record: the prepared branches have the outcomes of their calls, and the status is the
verdict on all branches. -/
theorem submitted_decided (tx : GlobalTxn) (w : World) :
    (tx.submitted w).frame = tx.frame ∧
      (∀ i b, tx.branches[i]? = some b → ∃ b', (tx.submitted w).branches[i]? = some b' ∧
        b'.status = if b.status = .prepared then
          (if (w.call (branchCall tx i b)).verdict = some true then .succeed else .failed) else b.status) ∧
      (tx.submitted w).status =
        if ∀ b ∈ (tx.submitted w).branches, b.status = .succeed then .committed else .aborted := by
  refine ⟨submitSaves_frame w tx _ (by simp [submitSaves, GlobalTxn.submitted]), fun i b hb => ?_,
    finalStatus_resolved (tx.outcomes_resolved w)⟩
  refine ⟨withOutcome w tx i b, ?_, ?_⟩
  · show (tx.outcomes w)[i]? = _
    rw [getElem?_outcomes, hb, Option.map_some]
  · unfold withOutcome succeeds
    split
    · cases hv : (w.call (branchCall tx i b)).verdict with
      | none => simp
      | some ok => cases ok <;> simp
    · rfl

/-- **A submit after a crash decides the transaction.** It is the only request on the transaction since the crash, and
its storage calls work; calls on other transactions are in flight, and any that read this one. Before and after the
crash any calls may time out. Once the submit has its reply, and in time, this is a success, and every branch that was
left without an outcome has the one of its call. -/
theorem submit_recovers (exec : ExecConfig) {epochs : List (List (ApiCall × World))} {st : Kv}
    (crashes : TimedEpochs exec epochs st) {g : String} {tx : GlobalTxn} (htx : record st g = some tx)
    (cs : List (ApiCall × World)) {i : Nat} {c : ApiCall × World} (hi : cs[i]? = some c)
    (hc : c.1.operation = .request (.submit g)) (hw : c.2.Reliable)
    (hg : ∀ j g', transactionOf cs j = some g' → g' = g ∨ ¬ Entangled g' g)
    (halone : ∀ j, transactionOf cs j = some g → isRequest cs j = true → j = i) {tr : Log}
    {b : Pool Bytes Bytes BranchCall Error ApiReply} (h : TimedRun exec st cs tr b) {r : ApiReply}
    (hr : replyAt b i = some r) (hintime : r ≠ requestTimeout) :
    r = c.1.reply (.ok (.done none)) ∧ ∃ tx', record b.store g = some tx' ∧ tx'.frame = tx.frame ∧
      (∀ n br, tx.branches[n]? = some br → ∃ br', tx'.branches[n]? = some br' ∧
        br'.status = if br.status = .prepared then
          (if (c.2.call (branchCall tx n br)).verdict = some true then .succeed else .failed) else br.status) ∧
      tx'.status = if ∀ br ∈ tx'.branches, br.status = .succeed then .committed else .aborted := by
  obtain ⟨tr₀, s₀, hepochs, rfl⟩ := crashes.epochs
  obtain ⟨l, hl⟩ := (arriving_within sound_empty (arriving_of_restarts hepochs)).1.refines
  have hon : transactionOf cs i = some g := by
    rw [transactionOf, hi, Option.bind_some, hc]
    rfl
  have hcalls : [i].map (cs[·]?) = [c].map some := by simp [hi]
  have hreplies : [i].map (replyAt b) = [r].map some := by simp [hr]
  obtain ⟨hreply, hrecord, -⟩ := turns_refine exec hl cs g hg (List.nodup_singleton i) (by simpa using hon)
    (fun j hj hreq => by simp [halone j hj hreq]) hcalls (by simpa using hw) h (inSequence_singleton i tr) hreplies
    (by simpa using hintime.symm)
  -- the ledger serves one submit
  have hperform : l.performAll (operations [c]) = ([.ok (.done none)], l.serve (.submit g, c.2)) := by
    simp only [operations, List.map_cons, List.map_nil, hc]
    rfl
  have hserve : (l.serve (.submit g, c.2)).records g = some (tx.submitted c.2) := by
    rw [Ledger.serve, if_neg (by simp [Ledger.marked, Request.mark])]
    show Function.update l.records g ((l.records g).map fun tx => tx.submitted c.2) g = _
    rw [Function.update_self, ← hl.records, htx, Option.map_some]
  rw [hperform, hserve] at hrecord
  rw [Ledger.replies, hperform] at hreply
  exact ⟨List.singleton_inj.mp hreply, _, hrecord, submitted_decided tx c.2⟩

end Recovery

section Example

attribute [local instance] Json.serdeJson

/-- The record in the middle of its submit. -/
def leftCommitting : GlobalTxn := ⟨"g", "saga", .committing, [1, 2], [⟨"b", "http://b", .prepared⟩], 3, 1⟩

/-- After a crash the transaction is submitted again, and a branch of another transaction is tried. -/
def submittedAgain : List (ApiCall × World) :=
  [(.http (.submit ⟨"g"⟩), .calm 6), (.http (.branchTry ⟨"h", "b", "http://b"⟩), .calm 7)]

/-- The submit times out before its participant answers, and the server crashes when it has answered. The submit after
the crash is in time, the branch that is tried with it is not. -/
theorem submit_recovers_again : ∃ st tr b tx, TimedEpochs .default [mixedCalls] st ∧
    record st "g" = some leftCommitting ∧ TimedRun .default st submittedAgain tr b ∧ Replied b 0 (.done none) ∧
      Replied b 1 (.failed "") ∧ record b.store "g" = some tx ∧ tx.frame = leftCommitting.frame ∧
        ∃ br, tx.branches[0]? = some br ∧ br.status = .succeed := by
  obtain ⟨tr₀, b₀, h₀, hq⟩ := timedRun_of_exec .default ∅ mixedCalls 2 rfl rfl
    [.main 0, .main 0, .main 1, .main 1, .main 1, .main 2, .main 2, .main 2, .main 2, .main 2, .main 2] [.task 2 0]
    (fun x => decide (record x.2.store "g" = some leftCommitting) &&
      ((arriving .default x.2.store submittedAgain).execCut requestTimeout [.main 0, .main 0, .main 1, .main 0, .main 0,
        .main 0, .main 0, .main 1] 1 [.task 0 0, .main 0, .main 0, .main 0, .main 0, .main 0]).any
          fun (y : Log × _) => decide (Replied y.2 0 (.done none) ∧ Replied y.2 1 (.failed ""))) (by decide +kernel)
  obtain ⟨hrecord, hagain⟩ := Bool.and_eq_true_iff.mp hq
  have hleft : record b₀.store "g" = some leftCommitting := of_decide_eq_true hrecord
  obtain ⟨tr, b, h, hq'⟩ := timedRun_of_exec .default b₀.store submittedAgain 1 rfl rfl _ _ _ hagain
  obtain ⟨hreplied, hlate⟩ := of_decide_eq_true hq'
  obtain ⟨r, hr, hm⟩ := replied_iff_replyAt.mp hreplied
  have crashes : TimedEpochs .default [mixedCalls] b₀.store := TimedEpochs.nil.next h₀
  have hplain : ∀ c ∈ submittedAgain, ∀ g' ∈ c.1.operation.gid c.2, Plain g' := by
    unfold Plain
    decide
  have halone (j : Nat) (hj : transactionOf submittedAgain j = some "g") : j = 0 := by
    rcases j with _ | _ | j
    · rfl
    · exact absurd (Option.some.inj hj) (by decide)
    · cases hj
  obtain ⟨-, tx, htx, hframe, hbranches, -⟩ := submit_recovers .default crashes hleft submittedAgain (i := 0) rfl rfl
    (fun _ => rfl) (apart_of_plain (by simp [Plain]) hplain) (fun j hj _ => halone j hj) h hr (by
      rintro rfl
      cases hm)
  obtain ⟨br, hbr, hstatus⟩ := hbranches 0 _ rfl
  exact ⟨_, tr, b, tx, crashes, hleft, h, hreplied, hlate, htx, hframe, br, hbr, hstatus⟩

end Example

end Seata
