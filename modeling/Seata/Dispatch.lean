import Seata.Upkeep
import Seata.Json
import Seata.Async.Tasks

/-!
# How often a branch is executed

Nothing marks a submit as in progress, so two submits that overlap both dispatch the prepared branches
(`executed_twice`). When no submit loads a record with a prepared branch while another one is between its load and its
second save (`Exclusive`), every branch is dispatched at most once over the whole run (`executed_once`); a branch that
has its outcome at the beginning is never dispatched, whatever overlaps (`settled_not_called`).

The proof follows the phases of a run: nobody has loaded (`Phase.waiting`), one submit is at work and nobody else has
loaded (`Phase.working`), the record is resolved and whatever is left to do spawns nothing (`Phase.settled`).
-/

namespace Seata

open Async

/-- The calls for the branch at position `n`. -/
def atSlot (n : Nat) (c : BranchCall) : Bool := c.slot == n

/-- The numbers of the calls are the positions of different branches. -/
theorem calls_atSlot_le (tx : GlobalTxn) (n : Nat) : tx.calls.countP (atSlot n) ≤ 1 := by
  have hmap : tx.calls.countP (atSlot n) =
      (tx.branches.zipIdx.filter fun p => p.1.status == .prepared).countP fun p => p.2 == n := by
    rw [GlobalTxn.calls, callsOf, List.countP_map]
    rfl
  have hsub : (tx.branches.zipIdx.filter fun p => p.1.status == .prepared).countP (fun p => p.2 == n) ≤
      tx.branches.zipIdx.countP fun p => p.2 == n := List.Sublist.countP_le List.filter_sublist
  have hcount : (tx.branches.zipIdx.countP fun p => p.2 == n) = (List.range' 0 tx.branches.length).count n := by
    rw [← List.zipIdx_map_snd 0 tx.branches, List.count, List.countP_map]
    rfl
  have hone : (List.range' 0 tx.branches.length).count n ≤ 1 := List.nodup_iff_count_le_one.mp List.nodup_range' n
  omega

/-- A call is made for a prepared branch at its position. -/
theorem mem_calls {tx : GlobalTxn} {x : BranchCall} (h : x ∈ tx.calls) :
    ∃ b, tx.branches[x.slot]? = some b ∧ b.status = .prepared ∧ x = branchCall tx x.slot b := by
  obtain ⟨⟨b, i⟩, hp, rfl⟩ := List.mem_map.mp h
  obtain ⟨hz, hb⟩ := List.mem_filter.mp hp
  have hi : tx.branches[i]? = some b := by
    have := List.mk_mem_zipIdx_iff_getElem?.mp hz
    simpa using this
  exact ⟨b, hi, by simpa using hb, rfl⟩

section Dispatch

variable [SerdeJson]

/-! ## Settled branches -/

/-- The branch at position `n` has its outcome. -/
def slotSettled (n : Nat) (o : Option GlobalTxn) : Prop :=
  ∃ tx, o = some tx ∧ ∃ b, tx.branches[n]? = some b ∧ b.status ≠ .prepared

/-- A submit leaves a settled branch alone. -/
theorem upholds_slotSettled (exec : ExecConfig) (gid : String) (n : Nat) (c : Core BranchCall Error) :
    Upholds {gid} (slotSettled n) (slotSettled n) anyMark (fun x => x.slot ≠ n) (script (submit exec gid) c) := by
  apply upholds_submit exec (Set.mem_singleton gid)
  · rintro tx n₁ - ⟨tx', htx, b, hb, hs⟩
    cases htx
    have hout (e : World) : (tx.outcomes e)[n]? = some b := by
      have hw : withOutcome e tx n b = b := if_neg hs
      simp [GlobalTxn.outcomes, List.getElem?_zipIdx, hb, hw]
    exact ⟨⟨_, rfl, b, hb, hs⟩, fun e n₂ => ⟨⟨_, rfl, b, hout e, hs⟩, fun n₃ => ⟨_, rfl, b, hout e, hs⟩⟩⟩
  · rintro tx - ⟨tx', htx, b, hb, hs⟩ x hx hn
    cases htx
    obtain ⟨b', hb', hp, -⟩ := mem_calls hx
    rw [hn, hb] at hb'
    cases hb'
    exact hs hp

/-- **A settled branch is never called**, in any run of submits. -/
theorem settled_not_called {exec : ExecConfig} {st : Kv} {tx : GlobalTxn} (hst : Stored st tx)
    {rs : List (SagaRequest × World)} (hrs : ∀ r ∈ rs, r.1 = .submit tx.gid) {tr : Log} {s : Handlers Unit}
    (h : Run (managing exec st rs) tr s) {n : Nat} {b : BranchTxn} (hb : tx.branches[n]? = some b)
    (hs : b.status ≠ .prepared) {t : Turn} {e : Event Bytes Bytes BranchCall} {c : BranchCall} (hm : (t, e) ∈ tr)
    (hc : e.attempts c) : c.slot ≠ n := by
  have hstore : ∀ k, Keeps {tx.gid} (slotSettled n) anyMark k (st.lookup k) := keeps_stored hst rfl ⟨tx, rfl, b, hb, hs⟩
  have hscripts : ∀ i : Nat, ∀ x : Action Unit, (managing exec st rs).todos[i]? = some x →
      Upholds {tx.gid} (slotSettled n) (slotSettled n) anyMark (fun x => x.slot ≠ n) x := by
    intro i x hx
    rw [managing_todos] at hx
    obtain ⟨⟨r, w⟩, hr, rfl⟩ := List.mem_map.mp (List.mem_of_getElem? hx)
    obtain rfl : r = .submit tx.gid := hrs _ hr
    exact upholds_slotSettled exec tx.gid n _
  obtain ⟨-, -, -, hspawns⟩ := h.interleaving.guarantees (S := fun _ x => x.slot ≠ n)
      (R := fun _ _ => True) hstore hscripts
    fun t k v _ hv => hv
  exact hspawns _ c (h.spawned_before hm hc)

/-! ## Submits that do not overlap -/

/-- A save of handler `i`. -/
def isSave (i : Nat) : Turn × Event Bytes Bytes BranchCall → Bool
  | (.main j, .put _ _) => j == i
  | _ => false

/-- How many saves handler `i` has made. -/
def saves (i : Nat) (tr : Log) : Nat := tr.countP (isSave i)

/-- Every other submit that has begun has saved its outcomes. -/
def Alone (before : Log) (i : Nat) : Prop := ∀ x ∈ before, x.1.handler ≠ i → 2 ≤ saves x.1.handler before

/-- **No submit loads a record with a prepared branch** while another one is between its load and its second save. -/
def Exclusive (before : Log) : Turn × Event Bytes Bytes BranchCall → Prop
  | (.main i, .get _ (some v)) =>
    match fromSlice v with
    | .ok tx => Resolved tx.branches ∨ Alone before i
    | .error _ => True
  | _ => True

instance (before : Log) (x : Turn × Event Bytes Bytes BranchCall) : Decidable (Exclusive before x) := by
  unfold Exclusive Alone Resolved
  split
  · split <;> infer_instance
  · infer_instance

omit [SerdeJson] in
theorem saves_snoc (i : Nat) (tr : Log) (x : Turn × Event Bytes Bytes BranchCall) :
    saves i (tr ++ [x]) = saves i tr + (isSave i x).toNat := by
  rw [saves, List.countP_append, List.countP_singleton, ← saves]
  cases isSave i x <;> rfl

omit [SerdeJson] in
theorem isSave_hidden {i : Nat} {t : Turn} {e : Event Bytes Bytes BranchCall} (h : e.visible = false) :
    isSave i (t, e) = false := by
  cases t <;> cases e <;> first | rfl | cases h

/-- Every branch of the record has its outcome. -/
def allSettled (o : Option GlobalTxn) : Prop := ∃ tx, o = some tx ∧ Resolved tx.branches

/-- The handler goes on with resolved records and spawns nothing. -/
abbrev Calm (gid : String) (x : Action Unit) : Prop := Upholds {gid} allSettled allSettled anyMark (fun _ => False) x

theorem calm_submit (exec : ExecConfig) (gid : String) (c : Core BranchCall Error) :
    Calm gid (script (submit exec gid) c) := by
  apply upholds_submit exec (Set.mem_singleton gid)
  · rintro tx n₁ - ⟨tx', htx, hr⟩
    cases htx
    exact ⟨⟨_, rfl, hr⟩, fun e n₂ => ⟨⟨_, rfl, tx.outcomes_resolved e⟩, fun n₃ => ⟨_, rfl, tx.outcomes_resolved e⟩⟩⟩
  · rintro tx - ⟨tx', htx, hr⟩ x hx
    cases htx
    rw [calls_resolved hr] at hx
    cases hx

/-- What is left of a submit after its first save: the calls `cs`, and the save of the outcomes. -/
def Deciding (gid : String) (cs : List BranchCall) (x : Action Unit) : Prop :=
  ∃ tx z, x = .spawnAll cs (.write (txnKey gid) (toVec tx) z) ∧ tx.gid = gid ∧ Resolved tx.branches ∧ Calm gid z

/-- What is left of a submit after its load of a record with prepared branches. -/
def Loaded (gid : String) (cs : List BranchCall) (x : Action Unit) : Prop :=
  ∃ tx y, x = .write (txnKey gid) (toVec tx) y ∧ tx.gid = gid ∧ ¬ Resolved tx.branches ∧ Deciding gid cs y

theorem loaded_submitRest {tx : GlobalTxn} {c : Core BranchCall Error} (hc : c.env.Reliable)
    (h : ¬ Resolved tx.branches) : Loaded tx.gid tx.calls (submitRest tx c) := by
  unfold submitRest
  rw [Script.tryWrite_reliable (c := c.tick) hc]
  refine ⟨_, _, rfl, rfl, h, ?_⟩
  rw [Script.tryWrite_reliable (c := (spawned c.tick.io _).tick) hc]
  exact ⟨_, _, rfl, rfl, tx.outcomes_resolved c.env, upholds_saveLast ⟨_, rfl, tx.outcomes_resolved c.env⟩⟩

/-- A submit that has not begun. -/
def fresh (gid : String) (w : World) : Action Unit :=
  .read (txnKey gid) fun v => onRecord v (Core.io (.init w)) submitRest

theorem script_fresh (exec : ExecConfig) (gid : String) {w : World} (hw : w.Reliable) :
    script (submit exec gid) (.init w) = fresh gid w := by
  have hc : (Core.init w : Core BranchCall Error).env.Reliable := hw
  rw [script_submit, Script.tryRead_reliable hc]
  rfl

/-! ## The phases of a run -/

/-- Submit `i` is at work and nobody else has begun: what is left of it, and the calls `cs` that it has not spawned
yet. -/
structure Working (gid : String) (tx₀ : GlobalTxn) (ws : List World) (tr : Log) (st : Kv)
    (xs : List (Action Unit)) (i : Nat) (x : Action Unit) (cs : List BranchCall) : Prop where
  stored : ∃ tx, Stored st tx ∧ tx.gid = gid ∧ ¬ Resolved tx.branches
  here : xs[i]? = some x
  others : ∀ j : Nat, j ≠ i → xs[j]? = (ws.map (fresh gid))[j]?
  begun : ∃ e, (.main i, e) ∈ tr
  stage : saves i tr = 0 ∧ Loaded gid cs x ∨ saves i tr = 1 ∧ Deciding gid cs x
  calls : ∀ q, starts q tr + cs.countP q = tx₀.calls.countP q

/-- Where a run of submits stands: nobody has loaded, one submit is at work, or the record is resolved. The calls are
those of the first record `tx₀`. -/
inductive Phase (gid : String) (tx₀ : GlobalTxn) (ws : List World) (tr : Log) (st : Kv) (xs : List (Action Unit)) : Prop
  | waiting (stored : Stored st tx₀) (prepared : ¬ Resolved tx₀.branches) (scripts : xs = ws.map (fresh gid))
      (none : ∀ q, starts q tr = 0) (unsaved : ∀ i, saves i tr = 0)
  | working {i : Nat} {x : Action Unit} {cs : List BranchCall} (work : Working gid tx₀ ws tr st xs i x cs)
  | settled (store : ∀ k, Keeps {gid} allSettled anyMark k (st.lookup k)) (scripts : ∀ x ∈ xs, Calm gid x)
      (calls : ∀ q, starts q tr ≤ tx₀.calls.countP q)

theorem fresh_head {gid : String} {ws : List World} {j : Nat} {x : Action Unit}
    (h : (ws.map (fresh gid))[j]? = some x) : ∃ w ∈ ws, x = fresh gid w := by
  rw [List.getElem?_map, Option.map_eq_some_iff] at h
  obtain ⟨w, hw, rfl⟩ := h
  exact ⟨w, List.mem_of_getElem? hw, rfl⟩

section Steps

variable {gid : String} {tx₀ : GlobalTxn} {ws : List World} {tr : Log} {st st' : Kv}
  {xs xs' : List (Action Unit)} {t : Turn} {e : Event Bytes Bytes BranchCall}

theorem waiting_step (hws : ∀ w ∈ ws, w.Reliable) (hgid : tx₀.gid = gid) (stored : Stored st tx₀)
    (prepared : ¬ Resolved tx₀.branches) (none : ∀ q, starts q tr = 0) (unsaved : ∀ i, saves i tr = 0)
    (hm : Moves st (ws.map (fresh gid)) st' xs' t e) : Phase gid tx₀ ws (tr ++ [(t, e)]) st' xs' := by
  cases hm with
  | silent hidden =>
    refine .waiting stored prepared rfl (fun q => ?_) fun i => ?_
    · rw [starts_snoc, none, started_hidden hidden]
      rfl
    · rw [saves_snoc, unsaved, isSave_hidden hidden]
      rfl
  | @read j k f head =>
    obtain ⟨w, hw, hf⟩ := fresh_head head
    cases hf
    subst hgid
    have hlookup : st.lookup (txnKey tx₀.gid) = some (toVec tx₀) := stored
    have hload : Loaded tx₀.gid tx₀.calls (onRecord (st.lookup (txnKey tx₀.gid)) (Core.io (.init w)) submitRest) := by
      rw [hlookup, onRecord_toVec]
      exact loaded_submitRest (hws w hw) prepared
    refine .working ⟨⟨tx₀, stored, rfl, prepared⟩, List.getElem?_set_self (List.getElem?_eq_some_iff.mp head).1,
      fun j' hj => List.getElem?_set_ne (Ne.symm hj), ⟨_, List.mem_append_right _ (List.mem_singleton_self _)⟩,
      .inl ⟨?_, hload⟩, fun q => ?_⟩
    · rw [saves_snoc, unsaved]
      rfl
    · rw [starts_snoc, none]
      simp [started]
  | write head =>
    obtain ⟨w, -, hx⟩ := fresh_head head
    cases hx
  | spawn head =>
    obtain ⟨w, -, hx⟩ := fresh_head head
    cases hx

theorem settled_step (store : ∀ k, Keeps {gid} allSettled anyMark k (st.lookup k)) (scripts : ∀ x ∈ xs, Calm gid x)
    (calls : ∀ q, starts q tr ≤ tx₀.calls.countP q) (hm : Moves st xs st' xs' t e) :
    Phase gid tx₀ ws (tr ++ [(t, e)]) st' xs' := by
  obtain ⟨hstore, hscripts, -, hspawn⟩ := hm.guarantees (S := fun _ _ => False) (R := fun _ _ => True) store
    (fun i x hx => scripts x (List.mem_of_getElem? hx)) fun k v _ hv => hv
  refine .settled hstore (fun x hx => ?_) fun q => ?_
  · obtain ⟨i, hi⟩ := List.getElem?_of_mem hx
    exact hscripts i x hi
  · have hno : started q (t, e) = false := by
      cases e with
      | spawn c => exact (hspawn c rfl).elim
      | _ => rfl
    rw [starts_snoc, hno]
    exact calls q

section Working

variable {i j : Nat} {k : Bytes} {x y : Action Unit} {cs : List BranchCall}

/-- Whoever else moves has not begun. -/
theorem Working.fresh (hw : Working gid tx₀ ws tr st xs i x cs) (hj : j ≠ i) (head : xs[j]? = some y) :
    ∃ w ∈ ws, y = fresh gid w := fresh_head ((hw.others j hj).symm.trans head)

/-- The other handlers after a turn of submit `i`. -/
theorem Working.others_set (hw : Working gid tx₀ ws tr st xs i x cs) :
    ∀ j : Nat, j ≠ i → (xs.set i y)[j]? = (ws.map (Seata.fresh gid))[j]? := by
  intro j hj
  rw [List.getElem?_set_ne (Ne.symm hj), hw.others j hj]

/-- **Nobody may load now**: the record has a prepared branch, and submit `i` has not saved its outcomes. -/
theorem Working.no_load (hw : Working gid tx₀ ws tr st xs i x cs) {f : Option Bytes → Action Unit}
    (head : xs[j]? = some (.read k f)) : ¬ Exclusive tr (.main j, .get k (st.lookup k)) := by
  have hj : j ≠ i := by
    rintro rfl
    obtain rfl := Option.some.inj (hw.here.symm.trans head)
    rcases hw.stage with ⟨-, tx, y, hx, -⟩ | ⟨-, tx, z, hx, -⟩
    · cases hx
    · cases cs <;> cases hx
  obtain ⟨w, -, hf⟩ := hw.fresh hj head
  cases hf
  obtain ⟨tx, hst, rfl, hr⟩ := hw.stored
  have hlookup : st.lookup (txnKey tx.gid) = some (toVec tx) := hst
  intro hex
  simp only [hlookup, Exclusive, SerdeJson.fromSlice_toVec] at hex
  rcases hex with hres | halone
  · exact hr hres
  · obtain ⟨e, he⟩ := hw.begun
    have htwo : 2 ≤ saves i tr := halone _ he (Ne.symm hj)
    rcases hw.stage with ⟨hs, -⟩ | ⟨hs, -⟩ <;> omega

/-- The first save of the submit, or the one that resolves the record. -/
theorem Working.save (hcalm : ∀ w ∈ ws, Calm gid (Seata.fresh gid w))
    (hw : Working gid tx₀ ws tr st xs i x cs) {v : Bytes} (head : xs[j]? = some (.write k v y)) :
    Phase gid tx₀ ws (tr ++ [(.main j, .put k v)]) (st.insert k v) (xs.set j y) := by
  have hlt := (List.getElem?_eq_some_iff.mp head).1
  by_cases hj : j = i
  · subst hj
    obtain rfl := Option.some.inj (hw.here.symm.trans head)
    rcases hw.stage with ⟨hs, tx, y', hx, hgid, hr, hd⟩ | ⟨hs, tx, z, hx, hgid, hr, hc⟩
    · cases hx
      subst hgid
      refine .working ⟨⟨tx, Finmap.lookup_insert _, rfl, hr⟩, List.getElem?_set_self hlt, hw.others_set,
        hw.begun.imp fun _ h => List.mem_append_left _ h, .inr ⟨?_, hd⟩, fun q => ?_⟩
      · rw [saves_snoc, hs]
        simp [isSave]
      · rw [starts_snoc]
        exact hw.calls q
    · cases cs with
      | cons c cs => cases hx
      | nil =>
        cases hx
        subst hgid
        have hstored : Stored (st.insert (txnKey tx.gid) (toVec tx)) tx := Finmap.lookup_insert _
        refine .settled (keeps_stored hstored rfl ⟨tx, rfl, hr⟩) (fun x' hx' => ?_) fun q => ?_
        · obtain ⟨j', hj'⟩ := List.getElem?_of_mem hx'
          rcases getElem?_set_cases hj' with ⟨-, rfl⟩ | ⟨hne, hj'⟩
          · exact hc
          · obtain ⟨w, hmem, rfl⟩ := hw.fresh hne hj'
            exact hcalm w hmem
        · have := hw.calls q
          rw [starts_snoc]
          simp only [started, Bool.toNat_false]
          omega
  · obtain ⟨w, -, hx⟩ := hw.fresh hj head
    cases hx

/-- The submit spawns the next of its calls. -/
theorem Working.spawn (hw : Working gid tx₀ ws tr st xs i x cs) {c : BranchCall} (head : xs[j]? = some (.spawn c y)) :
    Phase gid tx₀ ws (tr ++ [(.main j, .spawn c)]) st (xs.set j y) := by
  have hlt := (List.getElem?_eq_some_iff.mp head).1
  by_cases hj : j = i
  · subst hj
    obtain rfl := Option.some.inj (hw.here.symm.trans head)
    rcases hw.stage with ⟨-, tx, y', hx, -⟩ | ⟨hs, tx, z, hx, hgid, hr, hc⟩
    · cases hx
    · cases cs with
      | nil => cases hx
      | cons c' cs =>
        cases hx
        refine .working ⟨hw.stored, List.getElem?_set_self hlt, hw.others_set,
          hw.begun.imp fun _ h => List.mem_append_left _ h, .inr ⟨?_, tx, z, rfl, hgid, hr, hc⟩, fun q => ?_⟩
        · rw [saves_snoc, hs]
          rfl
        · have := hw.calls q
          rw [List.countP_cons] at this
          rw [starts_snoc]
          simp only [started]
          cases hq : q c <;> simp [hq] at this ⊢ <;> omega
  · obtain ⟨w, -, hx⟩ := hw.fresh hj head
    cases hx

theorem working_step (hcalm : ∀ w ∈ ws, Calm gid (fresh gid w)) (hw : Working gid tx₀ ws tr st xs i x cs)
    (hm : Moves st xs st' xs' t e) (hex : Exclusive tr (t, e)) : Phase gid tx₀ ws (tr ++ [(t, e)]) st' xs' := by
  cases hm with
  | silent hidden =>
    have hsaves : saves i (tr ++ [(t, e)]) = saves i tr := by rw [saves_snoc, isSave_hidden hidden]; rfl
    refine .working ⟨hw.stored, hw.here, hw.others, hw.begun.imp fun _ h => List.mem_append_left _ h, hsaves ▸ hw.stage,
      fun q => ?_⟩
    rw [starts_snoc, started_hidden hidden]
    exact hw.calls q
  | read head => exact absurd hex (hw.no_load head)
  | write head => exact hw.save hcalm head
  | spawn head => exact hw.spawn head

end Working

end Steps

/-- **The phases of a run** of submits that do not overlap. -/
theorem submit_phases {gid : String} {tx₀ : GlobalTxn} {ws : List World} {tr : Log} {st₀ st : Kv}
    {xs : List (Action Unit)} (h : Interleaving st₀ (ws.map (fresh gid)) tr st xs) (hst : Stored st₀ tx₀)
    (hgid : tx₀.gid = gid) (hws : ∀ w ∈ ws, w.Reliable) (hex : Along Exclusive tr) : Phase gid tx₀ ws tr st xs := by
  have hcalm : ∀ w ∈ ws, Calm gid (fresh gid w) := fun w hw =>
    script_fresh .default gid (hws w hw) ▸ calm_submit .default gid (.init w)
  induction h with
  | nil =>
    by_cases hr : Resolved tx₀.branches
    · refine .settled (keeps_stored hst hgid ⟨tx₀, rfl, hr⟩) (fun x hx => ?_) fun q => Nat.zero_le _
      obtain ⟨w, hw, rfl⟩ := List.mem_map.mp hx
      exact hcalm w hw
    · exact .waiting hst hr rfl (fun _ => rfl) fun _ => rfl
  | snoc _ hm ih =>
    obtain ⟨hex, hlast⟩ := along_snoc.mp hex
    cases ih hex with
    | waiting stored prepared scripts none unsaved =>
      subst scripts
      exact waiting_step hws hgid stored prepared none unsaved hm
    | working work => exact working_step hcalm work hm hlast
    | settled store scripts calls => exact settled_step store scripts calls hm

/-- **Every branch is executed at most once**, in any run of submits that do not overlap, and a settled branch never. -/
theorem executed_once (exec : ExecConfig) {st : Kv} {tx : GlobalTxn} (hst : Stored st tx)
    {rs : List (SagaRequest × World)} (hrs : ∀ r ∈ rs, r.1 = .submit tx.gid ∧ r.2.Reliable) {tr : Log}
    {s : Handlers Unit} (h : Run (managing exec st rs) tr s) (hex : Along Exclusive tr) (n : Nat) :
    successes (atSlot n) tr ≤ 1 ∧
      ∀ b, tx.branches[n]? = some b → b.status ≠ .prepared → ∀ t e c, (t, e) ∈ tr → e.attempts c → c.slot ≠ n := by
  constructor
  · have htodos : (managing exec st rs).todos = (rs.map Prod.snd).map (fresh tx.gid) := by
      rw [managing_todos, List.map_map]
      apply List.map_congr_left
      intro r hr
      obtain ⟨hreq, hw⟩ := hrs r hr
      have hs := script_fresh exec tx.gid hw
      simp only [Function.comp_apply, hreq]
      exact hs
    have hi := h.interleaving
    rw [htodos] at hi
    have hws : ∀ w ∈ rs.map Prod.snd, w.Reliable := by
      intro w hw
      obtain ⟨r, hr, rfl⟩ := List.mem_map.mp hw
      exact (hrs r hr).2
    have hstarts : starts (atSlot n) tr ≤ tx.calls.countP (atSlot n) := by
      cases submit_phases hi hst rfl hws hex with
      | waiting _ _ _ none _ => rw [none]; exact Nat.zero_le _
      | working work => have := work.calls (atSlot n); omega
      | settled _ _ calls => exact calls (atSlot n)
    have hone := calls_atSlot_le tx n
    have hsucc := h.successes_le (atSlot n)
    omega
  · intro b hb hs t e c hm hc
    exact settled_not_called hst (fun r hr => (hrs r hr).1) h hb hs hm hc

end Dispatch

section Example

attribute [local instance] Json.serdeJson

def twoSubmits : List (SagaRequest × World) := [(.submit "g", .calm 2), (.submit "g", .calm 3)]

theorem twoSubmits_reliable : ∀ r ∈ twoSubmits, r.1 = .submit oneBranch.gid ∧ r.2.Reliable := by
  intro r hr
  rcases List.mem_pair.mp hr with rfl | rfl
  · exact ⟨rfl, fun _ => rfl⟩
  · exact ⟨rfl, fun _ => rfl⟩

/-- Two submits load the record before either of them saves it. -/
theorem executed_twice : ¬ ∀ (exec : ExecConfig) (st : Kv) (tx : GlobalTxn) (rs : List (SagaRequest × World)) (tr : Log)
    (s : Handlers Unit), Stored st tx → (∀ r ∈ rs, r.1 = .submit tx.gid ∧ r.2.Reliable) →
      Run (managing exec st rs) tr s →
      ∀ n, successes (atSlot n) tr ≤ 1 ∧
        ∀ b, tx.branches[n]? = some b → b.status ≠ .prepared → ∀ t e c, (t, e) ∈ tr → e.attempts c → c.slot ≠ n := by
  intro hall
  have hexec : ((managing .default (holding oneBranch) twoSubmits).exec
      [.main 0, .main 1, .main 0, .main 0, .main 0, .main 0, .main 0, .main 1, .main 1, .main 1, .main 1, .main 1,
        .task 0 0, .task 1 0]).any (fun x => successes (atSlot 0) x.1 == 2) = true := by decide +kernel
  obtain ⟨tr, s, h, hq⟩ := run_of_exec _ _ hexec
  obtain ⟨hone, -⟩ := hall .default _ oneBranch twoSubmits tr s (stored_holding oneBranch) twoSubmits_reliable h 0
  have htwo : successes (atSlot 0) tr = 2 := beq_iff_eq.mp hq
  omega

/-- The second submit loads the record after the first one has saved its outcomes. -/
theorem executed_once_repeated : ∃ tr s, Run (managing .default (holding oneBranch) twoSubmits) tr s ∧
    starts (atSlot 0) tr = 1 ∧ successes (atSlot 0) tr ≤ 1 := by
  have hexec : ((managing .default (holding oneBranch) twoSubmits).exec
      [.main 0, .main 0, .main 0, .main 0, .main 0, .main 0, .task 0 0, .main 0, .main 0, .main 0, .main 1, .main 1,
        .main 1]).any (fun x => decide (Along Exclusive x.1 ∧ starts (atSlot 0) x.1 = 1)) = true := by decide +kernel
  obtain ⟨tr, s, h, hq⟩ := run_of_exec _ _ hexec
  obtain ⟨hex, hstarts⟩ := of_decide_eq_true hq
  exact ⟨tr, s, h, hstarts, (executed_once .default (stored_holding oneBranch) twoSubmits_reliable h hex 0).1⟩

end Example

end Seata
