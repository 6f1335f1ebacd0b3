import Seata.Server
import Seata.Scripts
import Seata.Async.Rules
import Seata.Json

/-!
# Submitting alone

A submit with no other request on its transaction saves at most three records, in order (`submit_alone`).

- `submit_cut`: wherever it is cut off, the record is one of these, or as it was;
- `Extends a b`: the record `b` keeps the frame and every outcome of `a` — a preorder which the saves climb;
- `resubmission_recovers`: after any number of attempts that may have been cut off, an attempt that ends leaves a
  terminal record with all outcomes that were ever stored, and from then on a submit changes only the time stamp.
-/

namespace Seata

open Async

/-! ## The saves of a submit -/

section Saves

variable (w : World) (tx : GlobalTxn)

/-- The records that a submit saves. -/
def submitSaves : List GlobalTxn :=
  let tx₁ := tx.committing (w.clock 0)
  let tx₂ := tx₁.decided w (w.clock 1)
  let tx₃ := tx₂.finalized (w.clock 2)
  [tx₁, tx₂, tx₃]

theorem submitSaves_frame : ∀ t ∈ submitSaves w tx, t.frame = tx.frame := by
  simp [submitSaves]

end Saves

/-! ## Growing records -/

/-- The record `b` keeps the frame of `a` and every branch that has its outcome. -/
structure Extends (a b : GlobalTxn) : Prop where
  frame : a.frame = b.frame
  settled : ∀ (i : Nat) (x : BranchTxn), a.branches[i]? = some x → x.status ≠ .prepared → b.branches[i]? = some x

namespace Extends

theorem refl (a : GlobalTxn) : Extends a a := ⟨rfl, fun _ _ h _ => h⟩

theorem trans {a b c : GlobalTxn} (h : Extends a b) (h' : Extends b c) : Extends a c :=
  ⟨h.frame.trans h'.frame, fun i x hx hs => h'.settled i x (h.settled i x hx hs) hs⟩

theorem of_branches {a b : GlobalTxn} (hf : a.frame = b.frame) (hb : a.branches = b.branches) : Extends a b :=
  ⟨hf, fun _ _ h _ => hb ▸ h⟩

theorem decided (tx : GlobalTxn) (e : World) (now : Int) : Extends tx (tx.decided e now) where
  frame := (tx.decided_frame e now).symm
  settled := by
    intro i x hx hs
    have hw : withOutcome e tx i x = x := if_neg hs
    simp [GlobalTxn.outcomes, List.getElem?_zipIdx, hx, hw]

end Extends

theorem submitSaves_extends (w : World) (tx : GlobalTxn) : (tx :: submitSaves w tx).Pairwise Extends := by
  have h₁ : Extends tx (tx.committing (w.clock 0)) := .of_branches rfl rfl
  have h₂ := Extends.decided (tx.committing (w.clock 0)) w (w.clock 1)
  have h₃ : Extends ((tx.committing (w.clock 0)).decided w (w.clock 1)) _ :=
    .of_branches (GlobalTxn.finalized_frame _ (w.clock 2)).symm rfl
  simp only [submitSaves, List.pairwise_cons, List.mem_cons, List.not_mem_nil, or_false, forall_eq_or_imp, forall_eq,
    false_imp_iff, implies_true, and_true, List.Pairwise.nil]
  exact ⟨⟨h₁, h₁.trans h₂, (h₁.trans h₂).trans h₃⟩, ⟨h₂, h₂.trans h₃⟩, h₃⟩

/-- In a chain, everything is below the last member. -/
theorem pairwise_getLast {α : Type} {R : α → α → Prop} (hr : ∀ a, R a a) {l : List α} (hne : l ≠ [])
    (h : l.Pairwise R) :
    ∀ a ∈ l, R a (l.getLast hne) := by
  intro a ha
  rcases List.eq_nil_or_concat l with hl | ⟨init, last, hl⟩
  · exact absurd hl hne
  · rw [List.concat_eq_append] at hl
    subst hl
    rw [List.pairwise_append] at h
    rw [List.getLast_append_singleton]
    rcases List.mem_append.mp ha with ha | ha
    · exact h.2.2 a ha last (List.mem_singleton_self last)
    · rw [List.mem_singleton.mp ha]
      exact hr last

/-! ## A submit alone -/

section Alone

variable [SerdeJson]

theorem toVec_injective : Function.Injective toVec := by
  intro a b h
  have hd := congrArg fromSlice h
  simpa using hd

/-- What is put when the records are saved. -/
def saved (gid : String) (txs : List GlobalTxn) : List (Bytes × Bytes) := txs.map fun tx => (txnKey gid, toVec tx)

/-- **A submit alone** saves its three records in order and calls the prepared branches. -/
theorem submit_alone (exec : ExecConfig) (w : World) {st : Kv} {tx : GlobalTxn} (hst : Stored st tx) :
    (script (submit exec tx.gid) (.init w)).Performs st (saved tx.gid (submitSaves w tx)) tx.calls := by
  rw [script_submit]
  refine .tryRead ?_
  rw [hst, onRecord_toVec, ← List.append_nil tx.calls]
  unfold submitRest
  refine .tryWrite ?_
  refine .spawnAll ?_
  refine .tryWrite ?_
  unfold saveLast
  refine .tryWrite ?_
  exact Script.performs_ok ()

/-- What a submit alone has put, wherever it was cut off. -/
theorem submit_puts {exec : ExecConfig} {w : World} {st : Kv} {tx : GlobalTxn} (hst : Stored st tx)
    {tr : Log} {s : Handlers Unit}
    (h : Run (managing exec st [(.submit tx.gid, w)]) tr s) :
    puts (tr.map Prod.snd) <+: saved tx.gid (submitSaves w tx) ∧ s.store = written st (puts (tr.map Prod.snd)) :=
  ⟨(run_alone_puts h).trans (submit_alone exec w hst).part, h.interleaving.written⟩

/-- What a submit alone has done when it returns. -/
theorem submit_returned {exec : ExecConfig} {w : World} {st : Kv} {tx : GlobalTxn} (hst : Stored st tx)
    {tr : Log} {s : Handlers Unit}
    (h : Run (managing exec st [(.submit tx.gid, w)]) tr s) (hok : s.AllOk) :
    puts (tr.map Prod.snd) = saved tx.gid (submitSaves w tx) ∧ spawns (tr.map Prod.snd) = tx.calls := by
  obtain ⟨a, c, hx⟩ := run_alone_complete h hok
  have hp := submit_alone exec w hst
  have hx : (script (submit exec tx.gid) (.init w)).exec st = (visibles (tr.map Prod.snd), (.ok a, c), s.store) := hx
  have hps := hp.puts a (by rw [hx])
  have hcs := hp.spawns a (by rw [hx])
  rw [hx] at hps hcs
  exact ⟨(puts_visibles _).symm.trans hps, (spawns_visibles _).symm.trans hcs⟩

/-- The saves in the store, one after the other. -/
theorem written_saved (st : Kv) (gid : String) (tx : GlobalTxn) : ∀ txs : List GlobalTxn,
    (written st (saved gid (txs ++ [tx]))).lookup (txnKey gid) = some (toVec tx)
  | txs => by
    rw [saved, List.map_append, written_append]
    exact Finmap.lookup_insert _

/-- The record after a part of the saves: the last of them, or the one before. -/
theorem stored_written {st : Kv} {tx : GlobalTxn} (hst : Stored st tx) {txs : List GlobalTxn}
    (hgid : ∀ t ∈ txs, t.gid = tx.gid) :
    Stored (written st (saved tx.gid txs)) ((tx :: txs).getLast (List.cons_ne_nil _ _)) := by
  rcases List.eq_nil_or_concat txs with rfl | ⟨init, last, rfl⟩
  · exact hst
  · rw [List.concat_eq_append] at hgid ⊢
    have hlast : (tx :: (init ++ [last])).getLast (List.cons_ne_nil _ _) = last := by simp
    rw [hlast, Stored, hgid last (by simp)]
    exact written_saved st tx.gid last init

/-- **Wherever a submit is cut off**, the record is as it was or one of its three saves, and what it has put are the
saves up to this one. -/
theorem submit_cut {exec : ExecConfig} {w : World} {st : Kv} {tx : GlobalTxn} (hst : Stored st tx)
    {tr : Log} {s : Handlers Unit}
    (h : Run (managing exec st [(.submit tx.gid, w)]) tr s) :
    ∃ txs, txs <+: submitSaves w tx ∧ puts (tr.map Prod.snd) = saved tx.gid txs ∧
      Stored s.store ((tx :: txs).getLast (List.cons_ne_nil _ _)) := by
  obtain ⟨hp, hs⟩ := submit_puts hst h
  obtain ⟨txs, htxs, hps⟩ := List.prefix_map_iff.mp hp
  refine ⟨txs, htxs, hps, ?_⟩
  rw [hs, hps]
  exact stored_written hst fun t ht => GlobalTxn.frame_gid (submitSaves_frame w tx t (htxs.subset ht))

/-- **A complete submit** leaves the record that it saved last. -/
theorem submit_stored {exec : ExecConfig} {w : World} {st : Kv} {tx : GlobalTxn} (hst : Stored st tx)
    {tr : Log} {s : Handlers Unit}
    (h : Run (managing exec st [(.submit tx.gid, w)]) tr s) (hok : s.AllOk) : Stored s.store (tx.submitted w) := by
  rw [(submit_puts hst h).2, (submit_returned hst h hok).1]
  exact stored_written hst fun t ht => GlobalTxn.frame_gid (submitSaves_frame w tx t ht)

/-- **An unfinished submit** leaves the record as it was, or `Committing` with all prepared branches decided or none, or
terminal. -/
theorem submit_unfinished (exec : ExecConfig) (w : World) {st : Kv} {tx : GlobalTxn} (hst : Stored st tx)
    {tr : Log} {s : Handlers Unit}
    (h : Run (managing exec st [(.submit tx.gid, w)]) tr s) :
    ∃ tx', Stored s.store tx' ∧ (tx' = tx ∨ tx'.frame = tx.frame ∧
      (tx'.status = .committing ∧ (tx'.branches = tx.branches ∨ tx'.branches = tx.outcomes w) ∨
        Terminal tx' ∧ tx'.branches = tx.outcomes w)) := by
  obtain ⟨txs, htxs, -, hs⟩ := submit_cut hst h
  refine ⟨_, hs, ?_⟩
  have hmem := List.getLast_mem (List.cons_ne_nil tx txs)
  rcases List.mem_cons.mp hmem with heq | hmem
  · exact .inl heq
  · have hmem := htxs.subset hmem
    refine .inr ⟨submitSaves_frame w tx _ hmem, ?_⟩
    simp only [submitSaves, List.mem_cons, List.not_mem_nil, or_false] at hmem
    rcases hmem with heq | heq | heq <;> rw [heq]
    · exact .inl ⟨rfl, .inl rfl⟩
    · exact .inl ⟨rfl, .inr rfl⟩
    · exact .inr ⟨GlobalTxn.finalized_terminal (tx.outcomes_resolved w) _, rfl⟩

end Alone

section Cut

attribute [local instance] Json.serdeJson

/-- A submit cut off after its first save leaves neither the old record nor a finished one. -/
theorem submit_left_committing : ¬ ∀ (exec : ExecConfig) (w : World) (st : Kv) (tx : GlobalTxn), Stored st tx →
    ∀ tr s, Run (managing exec st [(.submit tx.gid, w)]) tr s → ∃ tx',
      s.store.lookup (txnKey tx.gid) = some (toVec tx') ∧
      (tx' = tx ∨ tx'.status = .committed ∨ tx'.status = .aborted) := by
  intro h
  obtain ⟨tr, s, hrun, hq⟩ := run_of_exec (s := managing .default (holding oneBranch) [(.submit "g", .calm 2)])
    [.main 0, .main 0, .main 0]
    (fun x => x.2.store.lookup (txnKey "g") == some (toVec (oneBranch.committing 2))) (by decide +kernel)
  obtain ⟨tx', hs, htx'⟩ := h .default (.calm 2) _ oneBranch (stored_holding _) tr s hrun
  have heq : oneBranch.committing 2 = tx' := toVec_injective (Option.some.inj ((eq_of_beq hq).symm.trans hs))
  rw [← heq] at htx'
  revert htx'
  decide

/-- The same run is within the bounds. -/
theorem submit_unfinished_cut : ∃ tr s, Run (managing .default (holding oneBranch) [(.submit "g", .calm 2)]) tr s ∧
    ∃ tx', Stored s.store tx' ∧ (tx' = oneBranch ∨ tx'.frame = oneBranch.frame ∧
      (tx'.status = .committing ∧ (tx'.branches = oneBranch.branches ∨ tx'.branches = oneBranch.outcomes (.calm 2)) ∨
        Terminal tx' ∧ tx'.branches = oneBranch.outcomes (.calm 2))) := by
  obtain ⟨tr, s, hrun, -⟩ := run_of_exec (s := managing .default (holding oneBranch) [(.submit "g", .calm 2)])
    [.main 0, .main 0, .main 0] (fun _ => true) (by decide +kernel)
  exact ⟨tr, s, hrun, submit_unfinished .default _ (stored_holding _) hrun⟩

end Cut

/-! ## What a submit decides -/

section Decides

theorem getElem?_outcomes (tx : GlobalTxn) (e : World) (i : Nat) :
    (tx.outcomes e)[i]? = tx.branches[i]?.map (withOutcome e tx i) := by
  simp [GlobalTxn.outcomes, List.getElem?_zipIdx, Option.map_map, Function.comp_def]

variable [SerdeJson]

end Decides

section Cut

attribute [local instance] Json.serdeJson

/-- Three branches, of which one has failed before, one panics and one succeeds. -/
def mixed : GlobalTxn :=
  ⟨"g", "saga", .submitted, [], [⟨"a", "u", .failed⟩, ⟨"b", "v", .prepared⟩, ⟨"c", "u", .prepared⟩], 1, 1⟩

def mixedWorld : World :=
  { (Env.calm 2 : World) with call := fun c => if c.branchId = "b" then ⟨1, .panic⟩ else ⟨0, .success⟩ }

end Cut

/-! ## Submitting again -/

section Again

variable [SerdeJson]

/-- Attempts to submit, one after the other, each of them alone and cut off anywhere: what they have put, and the store
they leave. -/
inductive Attempts (exec : ExecConfig) (gid : String) (st₀ : Kv) : List (Bytes × Bytes) → Kv → Prop
  | nil : Attempts exec gid st₀ [] st₀
  | snoc {ps : List (Bytes × Bytes)} {st : Kv} {w : World} {tr : Log}
      {s : Handlers Unit} :
      Attempts exec gid st₀ ps st → Run (managing exec st [(.submit gid, w)]) tr s →
      Attempts exec gid st₀ (ps ++ puts (tr.map Prod.snd)) s.store

/-- One attempt keeps every outcome, of the record it found and of the records it saved. -/
theorem attempt_extends {exec : ExecConfig} {w : World} {st : Kv} {tx : GlobalTxn} (hst : Stored st tx)
    {tr : Log} {s : Handlers Unit}
    (h : Run (managing exec st [(.submit tx.gid, w)]) tr s) :
    ∃ tx', Stored s.store tx' ∧ Extends tx tx' ∧
      ∀ r, (txnKey tx.gid, toVec r) ∈ puts (tr.map Prod.snd) → Extends r tx' := by
  obtain ⟨txs, htxs, hps, hs⟩ := submit_cut hst h
  have hchain : (tx :: txs).Pairwise Extends := (submitSaves_extends w tx).sublist (htxs.sublist.cons_cons tx)
  have hlast := pairwise_getLast Extends.refl (List.cons_ne_nil tx txs) hchain
  refine ⟨_, hs, hlast tx List.mem_cons_self, fun r hr => ?_⟩
  rw [hps] at hr
  obtain ⟨t, ht, heq⟩ := List.mem_map.mp hr
  rw [← toVec_injective (Prod.mk.inj heq).2]
  exact hlast t (List.mem_cons_of_mem _ ht)

theorem attempts_extend {exec : ExecConfig} {st₀ st : Kv} {tx : GlobalTxn} (hst : Stored st₀ tx)
    {ps : List (Bytes × Bytes)} (h : Attempts exec tx.gid st₀ ps st) :
    ∃ tx', Stored st tx' ∧ Extends tx tx' ∧ ∀ r, (txnKey tx.gid, toVec r) ∈ ps → Extends r tx' := by
  induction h with
  | nil => exact ⟨tx, hst, .refl tx, by simp⟩
  | snoc _ hrun ih =>
    obtain ⟨cur, hcur, hext, hps⟩ := ih
    have hgid : cur.gid = tx.gid := (GlobalTxn.frame_gid hext.frame).symm
    rw [← hgid] at hrun
    obtain ⟨tx', hs, hext', hps'⟩ := attempt_extends hcur hrun
    refine ⟨tx', hs, hext.trans hext', fun r hr => ?_⟩
    rcases List.mem_append.mp hr with hr | hr
    · exact (hps r hr).trans hext'
    · exact hps' r (hgid ▸ hr)

/-- A complete submit of a settled transaction calls nothing and changes only the time stamp. -/
theorem submit_settled {exec : ExecConfig} {w : World} {st : Kv} {tx : GlobalTxn} (hst : Stored st tx)
    (hres : Resolved tx.branches) (hstatus : tx.status = finalStatus tx.branches) {tr : Log}
    {s : Handlers Unit}
    (h : Run (managing exec st [(.submit tx.gid, w)]) tr s) (hok : s.AllOk) :
    (∀ t c, (t, .spawn c) ∉ tr) ∧ ∃ now,
      s.store = st.insert (txnKey tx.gid) (toVec { tx with updatedUnix := now }) := by
  obtain ⟨hps, hcs⟩ := submit_returned hst h hok
  rw [calls_resolved hres] at hcs
  constructor
  · intro t c hc
    have hm : c ∈ spawns (tr.map Prod.snd) := mem_spawns.mpr (List.mem_map.mpr ⟨_, hc, rfl⟩)
    rw [hcs] at hm
    exact absurd hm List.not_mem_nil
  · refine ⟨w.clock 2, ?_⟩
    have hfin : ((tx.committing (w.clock 0)).decided w (w.clock 1)).finalized (w.clock 2) =
        { tx with updatedUnix := w.clock 2 } := by
      unfold GlobalTxn.finalized GlobalTxn.decided
      dsimp only
      rw [GlobalTxn.committing_outcomes, outcomes_of_resolved hres, ← hstatus]
      rfl
    rw [(submit_puts hst h).2, hps, ← hfin]
    simp only [written, saved, submitSaves, List.map_cons, List.map_nil, List.foldl_cons, List.foldl_nil,
      Finmap.insert_insert]

/-- **Re-submission recovers.** -/
theorem resubmission_recovers (exec : ExecConfig) {st₀ st : Kv} {tx : GlobalTxn} (hst : Stored st₀ tx)
    {ps : List (Bytes × Bytes)} (hprev : Attempts exec tx.gid st₀ ps st) {w : World} {tr : Log}
    {s : Handlers Unit}
    (h : Run (managing exec st [(.submit tx.gid, w)]) tr s) (hok : s.AllOk) :
    ∃ tx', Stored s.store tx' ∧ tx'.frame = tx.frame ∧ Resolved tx'.branches ∧
      (∀ r, r = tx ∨ (txnKey tx.gid, toVec r) ∈ ps ++ puts (tr.map Prod.snd) → Extends r tx') ∧
      tx'.status = (if ∀ b ∈ tx'.branches, b.status = .succeed then .committed else .aborted) ∧
      ∀ w' tr' s', Run (managing exec s.store [(.submit tx.gid, w')]) tr' s' → s'.AllOk →
        (∀ t c, (t, .spawn c) ∉ tr') ∧
          ∃ now, s'.store = s.store.insert (txnKey tx.gid) (toVec { tx' with updatedUnix := now }) := by
  obtain ⟨cur, hcur, hext, hps⟩ := attempts_extend hst hprev
  have hgid : cur.gid = tx.gid := (GlobalTxn.frame_gid hext.frame).symm
  rw [← hgid] at h
  obtain ⟨hsaves, -⟩ := submit_returned hcur h hok
  -- the last record of the attempt
  let tx' := cur.submitted w
  have hgid' : tx'.gid = tx.gid := hgid
  have hstored : Stored s.store tx' := submit_stored hcur h hok
  have hres : Resolved tx'.branches := cur.outcomes_resolved w
  have hstatus : tx'.status = finalStatus tx'.branches := rfl
  have hchain := pairwise_getLast Extends.refl (List.cons_ne_nil _ _) (submitSaves_extends w cur)
  have hcur' : Extends cur tx' := hchain cur List.mem_cons_self
  refine ⟨tx', hstored, (hext.trans hcur').frame.symm, hres, ?_, by rw [hstatus, finalStatus_resolved hres], ?_⟩
  · rintro r (rfl | hr)
    · exact hext.trans hcur'
    · rcases List.mem_append.mp hr with hr | hr
      · exact (hps r hr).trans hcur'
      · rw [hsaves, ← hgid] at hr
        obtain ⟨t, ht, heq⟩ := List.mem_map.mp hr
        rw [← toVec_injective (Prod.mk.inj heq).2]
        exact hchain t (List.mem_cons_of_mem _ ht)
  · intro w' tr' s' h' hok'
    rw [← hgid'] at h' ⊢
    exact submit_settled hstored hres hstatus h' hok'

end Again

section Cut

attribute [local instance] Json.serdeJson

/-- A submit cut off after its first save, and one that ends. -/
theorem resubmission_recovers_cut : ∃ (st : Kv) (tx' : GlobalTxn), Stored st tx' ∧ tx'.frame = oneBranch.frame ∧
    Resolved tx'.branches := by
  obtain ⟨tr, s, h, hq⟩ := run_of_exec (s := managing .default (holding oneBranch) [(.submit "g", .calm 2)])
    [.main 0, .main 0, .main 0]
    (fun x => ((managing .default x.2.store [(.submit "g", .calm 3)]).exec
      [.main 0, .main 0, .main 0, .main 0, .main 0, .main 0, .task 0 0, .main 0, .main 0, .main 0, .main 0,
        .main 0]).any
      fun y : Log × Handlers Unit => Decidable.decide y.2.AllOk) (by decide +kernel)
  obtain ⟨tr', s', h', hok⟩ := run_of_exec _ _ hq
  have hst : Stored (holding oneBranch) oneBranch := stored_holding _
  obtain ⟨tx', hs, hf, hres, -⟩ := resubmission_recovers .default hst (.snoc .nil h) h' (of_decide_eq_true hok)
  exact ⟨s'.store, tx', hs, hf, hres⟩

end Cut

end Seata
