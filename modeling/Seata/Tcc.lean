import Seata.Integrity
import Seata.Marks
import Seata.Redelivery
import Seata.Barrier

/-!
# Try, confirm and cancel

The three handlers of a branch have a mark each, and none of them looks at the mark of another one or at the status that
it overwrites.

- `stores_iff`: what a report needs to store its status, with any faults;
- `report_stored_iff`: a confirm or a cancel that comes after one that has been stored is stored in its turn if and only
  if its own mark is new and its storage calls work — the two do not exclude each other, and neither is stored twice;
- `no_hanging_iff`: **when a cancel is final**: exactly if it finds its branch registered and fails it, or finds it
  settled, or finds that the try has been spent.
-/

namespace Seata

open Async

/-! ## Registered branches -/

section Registered

variable [SerdeJson]

/-- The transaction is stored with the branch. -/
def Registered (st : Kv) (g b : String) : Prop := ∃ tx, record st g = some tx ∧ tx.hasBranch b = true

/-- The records of `g` have the branch. -/
def having (g b : String) (o : Option GlobalTxn) : Prop := ∀ tx, o = some tx → tx.gid = g → tx.hasBranch b = true

omit [SerdeJson] in
theorem hasBranch_of_labels {tx tx' : GlobalTxn} (h : tx.labels <+: tx'.labels) {b : String}
    (hb : tx.hasBranch b = true) :
    tx'.hasBranch b = true := by
  rw [GlobalTxn.hasBranch_iff] at hb ⊢
  obtain ⟨x, hx, rfl⟩ := hb
  obtain ⟨y, hy, hl⟩ := List.mem_map.mp (h.subset (List.mem_map_of_mem hx))
  exact ⟨y, hy, congrArg Prod.fst hl⟩

omit [SerdeJson] in
theorem having_ofFrame (g b : String) : OfFrame (having g b) := by
  rintro tx tx' h ha _ ⟨⟩ hg
  exact hasBranch_of_labels (GlobalTxn.labels_eq h ▸ List.prefix_rfl) (ha tx rfl ((GlobalTxn.frame_gid h).trans hg))

/-- The request starts the transaction `g`. -/
def Starts (g : String) (r : Request × World) : Prop := r.1.IsStart ∧ r.1.gid r.2 = g

/-- **A registered branch stays**, with any faults, unless its transaction is started again. -/
theorem serve_registered (exec : ExecConfig) {st : Kv} (h : Sound st) {g b : String} (hb : Registered st g b)
    {r : Request × World} (hr : ¬ Starts g r) : Registered (serve exec st r).2 g b := by
  obtain ⟨tx, htx, hb⟩ := hb
  have hsafe := safe_of_frame (having_ofFrame g b) exec r (M := anyMark) (fun _ _ => trivial) (by
    rintro gid mode payload hr' _ ⟨⟩ rfl
    refine absurd ?_ hr
    rw [Starts, hr']
    exact ⟨trivial, rfl⟩) (by
    rintro gid branchId action - tx now - hI - _ ⟨⟩ hg
    obtain ⟨x, hx, rfl⟩ := GlobalTxn.hasBranch_iff.mp (hI tx rfl hg)
    exact GlobalTxn.hasBranch_iff.mpr ⟨x, List.mem_append_left _ hx, rfl⟩)
  have hall : ∀ g', having g b (record st g') := by
    intro g' tx' htx' hg
    obtain rfl : g' = g := (h.gid htx').symm.trans hg
    cases htx.symm.trans htx'
    exact hb
  -- the record is still there
  have hsome : ((serve exec st r).2.lookup (txnKey g)).isSome := by
    apply serve_isSome exec r
    rw [h.lookup, htx]
    rfl
  have hs := serve_sound exec h r
  rw [hs.lookup, Option.isSome_map] at hsome
  obtain ⟨tx', htx'⟩ := Option.isSome_iff_exists.mp hsome
  exact ⟨tx', htx', serve_keeps hsafe h hall g tx' htx' (hs.gid htx')⟩

end Registered

/-! ## Reports -/

/-- A call of a handler, or a submit. -/
def Request.IsCall : Request → Prop
  | .submit _ => True
  | .branchTry _ _ _ => True
  | .branchSucceed _ _ => True
  | .branchFail _ _ => True
  | _ => False

/-- The branch that the request reports on, and the status that it reports. -/
def Request.reports : Request → Option (String × String × BranchStatus)
  | .branchSucceed g b => some (g, b, .succeed)
  | .branchFail g b => some (g, b, .failed)
  | _ => none

theorem reports_injective {r r' : Request} {x : String × String × BranchStatus} (h : r.reports = some x)
    (h' : r'.reports = some x) : r = r' := by
  cases r <;> cases h <;> cases r' <;> cases h' <;> rfl

theorem mark_of_reports {r : Request} {x : String × String × BranchStatus} (h : r.reports = some x) :
    ∃ k, r.mark = some k := by
  cases r <;> first | exact ⟨_, rfl⟩ | cases h

theorem not_start_of_reports {r : Request} {x : String × String × BranchStatus} (h : r.reports = some x) :
    ¬ r.IsStart := by
  cases r <;> first | exact id | cases h

section Reports

variable [SerdeJson]

/-- The request stores the branch with the status. -/
def Stores (exec : ExecConfig) (st : Kv) (r : Request × World) (g b : String) (status : BranchStatus) : Prop :=
  ∃ tx : GlobalTxn, (txnKey g, toVec tx) ∈ puts ((script (r.1.handler exec) (.init r.2)).exec st).1 ∧
    ∃ x ∈ tx.branches, x.branchId = b ∧ x.status = status

/-- The four storage calls of a report work. -/
def Undisturbed (w : World) : Prop := ∀ n < 4, w.fault n = none

/-- **What a report needs to store its status**: a registered branch, a new mark and working storage calls. -/
theorem stores_iff (exec : ExecConfig) {st : Kv} (h : Sound st) {r : Request × World} {g b : String}
    {status : BranchStatus} (hr : r.1.reports = some (g, b, status)) :
    Stores exec st r g b status ↔ Registered st g b ∧ r.1.marked st = false ∧ Undisturbed r.2 := by
  obtain ⟨r, w⟩ := r
  have hreport (p : BarrierPhase) : (∃ tx : GlobalTxn, (txnKey g, toVec tx) ∈
      puts ((script (guarded p g b (setBranch status g b) >>= fun _ => pure none : Server Response)
        (.init w)).exec st).1 ∧
        ∃ x ∈ tx.branches, x.branchId = b ∧ x.status = status) ↔
      Registered st g b ∧ (st.lookup (asBytes (Barrier.key g b p))).isSome = false ∧ Undisturbed w := by
    have hw : Undisturbed w ↔ w.fault 0 = none ∧ w.fault 1 = none ∧ w.fault 2 = none ∧ w.fault 3 = none := by
      refine ⟨fun h => ⟨h 0 (by omega), h 1 (by omega), h 2 (by omega), h 3 (by omega)⟩, ?_⟩
      rintro ⟨h₀, h₁, h₂, h₃⟩ n hn
      obtain rfl | rfl | rfl | rfl : n = 0 ∨ n = 1 ∨ n = 2 ∨ n = 3 := by omega
      all_goals assumption
    have hmark (tx : GlobalTxn) : (txnKey g, toVec tx) ≠ (asBytes (Barrier.key g b p), []) := fun heq =>
      mark_ne_txnKey g b p g (Prod.mk.inj heq).1.symm
    simp only [exec_handler_puts, mem_puts_guarded, mem_puts_setBranch (sound_insert_mark h g b p []),
      record_insert_mark, hmark, false_or, hw]
    constructor
    · rintro ⟨tx, ⟨hm, h₀, h₁, h₂, h₃, tx', htx', hb, -⟩, -⟩
      exact ⟨⟨tx', htx', hb⟩, hm, h₀, h₁, h₂, h₃⟩
    · rintro ⟨⟨tx, htx, hb⟩, hm, h₀, h₁, h₂, h₃⟩
      exact ⟨_, ⟨hm, h₀, h₁, h₂, h₃, tx, htx, hb, rfl⟩, GlobalTxn.reported_mem status _ hb⟩
  cases r with
  | branchSucceed g' b' =>
    cases hr
    exact hreport .confirm
  | branchFail g' b' =>
    cases hr
    exact hreport .cancel
  | _ => cases hr

/-- A report that has been stored has put its mark. -/
theorem Stores.isSome {exec : ExecConfig} {st : Kv} (h : Sound st) {r : Request × World} {g b : String}
    {status : BranchStatus} (hr : r.1.reports = some (g, b, status)) (hs : Stores exec st r g b status) {k : Bytes}
    (hk : r.1.mark = some k) :
    ((serve exec st r).2.lookup k).isSome := by
  have hw := ((stores_iff exec h hr).mp hs).2.2
  exact serve_marks_own exec (hw 0 (by decide)) (hw 1 (by decide)) hk

/-- **A confirm or cancel after one that has been stored**, in any run in which the transaction is not started again: it
is stored if and only if its own mark is new and its storage calls work. So neither is stored twice, and the two do not
exclude each other. -/
theorem report_stored_iff (exec : ExecConfig) {rs : List (Request × World)} {i j : Nat} (hij : i < j)
    (hj : j < rs.length) {g b : String} {status status' : BranchStatus} (hi : (rs[i]).1.reports = some (g, b, status))
    (hstored : Stores exec (serveAll exec ∅ (rs.take i)) rs[i] g b status)
    (hstart : ∀ k (hk : k < j), i < k → ¬ Starts g rs[k]) (hr : (rs[j]).1.reports = some (g, b, status')) :
    (Stores exec (serveAll exec ∅ (rs.take j)) rs[j] g b status' ↔
        (rs[j]).1.marked (serveAll exec ∅ (rs.take j)) = false ∧ Undisturbed (rs[j]).2) ∧
      (status' = status → ¬ Stores exec (serveAll exec ∅ (rs.take j)) rs[j] g b status') := by
  have hlt : i < rs.length := i.lt_trans hij hj
  have hsound (k : Nat) : Sound (serveAll exec ∅ (rs.take k)) := serveAll_sound exec _ sound_empty
  -- no request from `i` on starts the transaction, so the branch stays
  have hregistered : ∀ k, i ≤ k → k ≤ j → Registered (serveAll exec ∅ (rs.take k)) g b := by
    intro k hk
    induction k, hk using Nat.le_induction with
    | base => exact fun _ => ((stores_iff exec (hsound i) hi).mp hstored).1
    | succ k hk ih =>
      intro hkj
      rw [serveAll_take_succ exec ∅ (by omega)]
      apply serve_registered exec (hsound k) (ih (by omega))
      rcases hk.eq_or_lt with rfl | hk
      · exact fun hs => not_start_of_reports hi hs.1
      · exact hstart k hkj hk
  have hiff := stores_iff exec (hsound j) hr
  refine ⟨?_, ?_⟩
  · rw [hiff]
    exact and_iff_right (hregistered j hij.le le_rfl)
  · rintro rfl hs
    have hsame : (rs[j]).1 = (rs[i]).1 := reports_injective hr hi
    obtain ⟨k, hk⟩ := mark_of_reports hi
    have hmark : ((serveAll exec ∅ (rs.take j)).lookup k).isSome := by
      apply serveAll_take_isSome exec hij
      rw [serveAll_take_succ exec ∅ hlt]
      exact hstored.isSome (hsound i) hi hk
    have hnew := (hiff.mp hs).2.1
    rw [hsame, Request.marked, hk, Option.any_some, hmark] at hnew
    cases hnew

end Reports

section Example

attribute [local instance] Json.serdeJson

/-- A branch that is confirmed and then cancelled. -/
def confirmedThenCancelled : List (Request × World) :=
  [(.start "g" "tcc" [], .calm 1), (.branchTry "g" "b" "u", .calm 2), (.branchSucceed "g" "b", .calm 3),
    (.branchFail "g" "b", .calm 4)]

theorem confirmed_stored :
    Stores .default (serveAll .default ∅ (confirmedThenCancelled.take 2)) confirmedThenCancelled[2] "g" "b"
    .succeed := by
  have hw : ∀ r ∈ confirmedThenCancelled.take 2, r.2.Reliable := by
    simp [confirmedThenCancelled, Env.Reliable, Env.calm]
  apply (stores_iff .default (serveAll_sound _ _ sound_empty) rfl).mpr
  refine ⟨⟨⟨"g", "tcc", .submitted, [], [⟨"b", "u", .prepared⟩], 2, 1⟩, ?_, rfl⟩, ?_, fun _ _ => rfl⟩
  · rw [record_ledger .default hw]
    decide +kernel
  · rw [marked_ledger .default hw]
    decide +kernel

/-- The cancel finds its mark new. -/
theorem confirmedThenCancelled_marked :
    (confirmedThenCancelled[3]).1.marked (serveAll .default ∅ (confirmedThenCancelled.take 3)) = false := by
  rw [marked_ledger .default (by simp [confirmedThenCancelled, Env.Reliable, Env.calm])]
  decide +kernel

/-- The confirm does not keep the cancel away. -/
theorem both_stored :
    ¬ ∀ (exec : ExecConfig) (rs : List (Request × World)) (i j : Nat) (hij : i < j) (hj : j < rs.length)
    (g b : String), (∀ r ∈ rs.head?, Starts g r) → (∀ r ∈ rs.tail, (r.1.IsCall ∨ r.1 = .abort g) ∧ r.1.gid r.2 = g) →
      (∀ r ∈ rs, r.2.Reliable) → (rs[i]).1 = .branchSucceed g b →
        Stores exec (serveAll exec ∅ (rs.take i)) rs[i] g b .succeed →
        (rs[j]).1 = .branchFail g b → ¬ Stores exec (serveAll exec ∅ (rs.take j)) rs[j] g b .failed := by
  intro h
  apply h .default confirmedThenCancelled 2 3 (by decide) (by decide) "g" "b"
    (by simp [confirmedThenCancelled, Starts, Request.IsStart, Request.gid])
    (by simp [confirmedThenCancelled, Request.IsCall, Request.gid])
    (by simp [confirmedThenCancelled, Env.Reliable, Env.calm]) rfl confirmed_stored rfl
  apply (stores_iff .default (serveAll_sound _ _ sound_empty) rfl).mpr
  refine ⟨⟨⟨"g", "tcc", .submitted, [], [⟨"b", "u", .succeed⟩], 3, 1⟩, ?_, rfl⟩, confirmedThenCancelled_marked,
    fun _ _ => rfl⟩
  rw [record_ledger .default (by simp [confirmedThenCancelled, Env.Reliable, Env.calm])]
  decide +kernel

/-- The cancel is stored as its mark is new. -/
theorem cancel_stored :
    Stores .default (serveAll .default ∅ (confirmedThenCancelled.take 3)) confirmedThenCancelled[3] "g" "b"
      .failed := by
  apply (report_stored_iff .default (i := 2) (j := 3) (by decide) (by decide) rfl confirmed_stored
    (fun k hk hk' => by omega)
    rfl).1.mpr
  exact ⟨confirmedThenCancelled_marked, fun _ _ => rfl⟩

end Example

/-! ## Hanging tries -/

/-- The record has a prepared branch with this id. -/
def GlobalTxn.Pending (tx : GlobalTxn) (b : String) : Prop := ∃ x ∈ tx.branches, x.branchId = b ∧ x.status = .prepared

/-- No branch id occurs twice. -/
def GlobalTxn.Distinct (tx : GlobalTxn) : Prop := (tx.branches.map BranchTxn.branchId).Nodup

namespace GlobalTxn

variable {tx : GlobalTxn} {b : String}

theorem Pending.hasBranch (h : tx.Pending b) : tx.hasBranch b = true := by
  obtain ⟨x, hx, hb, -⟩ := h
  exact hasBranch_iff.mpr ⟨x, hx, hb⟩

theorem not_pending_submitted (w : World) : ¬ (tx.submitted w).Pending b := by
  rintro ⟨x, hx, -, hs⟩
  exact tx.outcomes_resolved w x hx hs

theorem pending_added {b' action : String} {now : Int} :
    (tx.added b' action now).Pending b ↔ tx.Pending b ∨ b = b' ∧ ¬ tx.hasBranch b = true := by
  unfold added
  split
  · rename_i hb
    refine ⟨.inl, fun h => h.resolve_right ?_⟩
    rintro ⟨rfl, hn⟩
    exact hn hb
  · rename_i hb
    constructor
    · rintro ⟨x, hx, rfl, hs⟩
      rcases List.mem_append.mp hx with hx | hx
      · exact .inl ⟨x, hx, rfl, hs⟩
      · obtain rfl := List.mem_singleton.mp hx
        exact .inr ⟨rfl, hb⟩
    · rintro (⟨x, hx, hb, hs⟩ | ⟨rfl, -⟩)
      · exact ⟨x, List.mem_append_left _ hx, hb, hs⟩
      · exact ⟨_, List.mem_append_right _ (List.mem_singleton_self _), rfl, rfl⟩

theorem pending_of_reported {status : BranchStatus} (hs : status ≠ .prepared) {b' : String} {now : Int}
    (h : (tx.reported status b' now).Pending b) : tx.Pending b := by
  obtain ⟨x, hx, hb, hp⟩ := h
  rcases mem_reported hx with hx | ⟨rfl, -⟩
  · exact ⟨x, hx, hb, hp⟩
  · exact absurd hp hs

theorem Distinct.of_frame {tx' : GlobalTxn} (h : tx.Distinct) (hf : tx.frame = tx'.frame) : tx'.Distinct := by
  rwa [Distinct, ← Integrity.branchIds_of_frame hf]

/-- A report settles its branch when the ids are distinct. -/
theorem not_pending_reported (h : tx.Distinct) {status : BranchStatus} (hs : status ≠ .prepared) {now : Int} :
    ¬ (tx.reported status b now).Pending b := by
  intro hp
  have hd : (tx.reported status b now).Distinct := by
    unfold reported
    split
    · exact h
    · rename_i bs hbs
      exact h.of_frame (withBranches_frame hbs).symm
  have hb := (pending_of_reported hs hp).hasBranch
  obtain ⟨y, hy, hyb, hys⟩ := reported_mem status now hb
  obtain ⟨x, hx, hxb, hxs⟩ := hp
  obtain rfl : x = y := List.inj_on_of_nodup_map hd hx hy (hxb.trans hyb.symm)
  exact hs (hys.symm.trans hxs)

end GlobalTxn

/-- Among the calls only a new try makes a branch pending. -/
theorem pending_effect {r : Request} (hr : r.IsCall) {w : World} {tx tx' : GlobalTxn} {b : String}
    (h : r.effect w (some tx) = some tx') (hp : tx'.Pending b) :
    tx.Pending b ∨ ¬ tx.hasBranch b = true ∧ ∃ gid action, r = .branchTry gid b action := by
  cases r with
  | submit gid =>
    cases h
    exact absurd hp (GlobalTxn.not_pending_submitted w)
  | branchTry gid b' action =>
    cases h
    rcases GlobalTxn.pending_added.mp hp with hp | ⟨rfl, hb⟩
    · exact .inl hp
    · exact .inr ⟨hb, gid, action, rfl⟩
  | branchSucceed gid b' =>
    cases h
    exact .inl (GlobalTxn.pending_of_reported (by simp) hp)
  | branchFail gid b' =>
    cases h
    exact .inl (GlobalTxn.pending_of_reported (by simp) hp)
  | _ => exact hr.elim

/-- Only a start makes a record. -/
theorem record_of_effect {r : Request} (hr : r.IsCall) {w : World} {o : Option GlobalTxn} {tx' : GlobalTxn}
    (h : r.effect w o = some tx') : ∃ tx, o = some tx := by
  cases o with
  | some tx => exact ⟨tx, rfl⟩
  | none => cases r <;> first | exact hr.elim | cases h

section Cancel

variable [SerdeJson]

/-- The transaction is stored with the branch, and the branch is prepared. -/
def Pending (st : Kv) (g b : String) : Prop := ∃ tx, record st g = some tx ∧ tx.Pending b

/-- The mark is there. -/
def MarkedFor (st : Kv) (g b : String) (p : BarrierPhase) : Prop :=
  (st.lookup (asBytes (Barrier.key g b p))).isSome = true

omit [SerdeJson] in
theorem marked_branchFail {st : Kv} {g b : String} :
    Request.marked st (.branchFail g b) = true ↔ MarkedFor st g b .cancel := Iff.rfl

def DistinctIds (st : Kv) : Prop := ∀ g tx, record st g = some tx → tx.Distinct

theorem serveAll_distinct (exec : ExecConfig) : ∀ (rs : List (Request × World)) {st : Kv}, Sound st → DistinctIds st →
    DistinctIds (serveAll exec st rs)
  | [], _, _, hd => hd
  | r :: rs, st, h, hd => by
    have hof : OfFrame fun o => ∀ tx : GlobalTxn, o = some tx → tx.Distinct := by
      rintro tx tx' hf htx _ ⟨⟩
      exact (htx tx rfl).of_frame hf
    have hsafe := safe_of_frame hof exec r (M := anyMark) (fun _ _ => trivial) (by
      rintro gid mode payload - _ ⟨⟩
      exact List.nodup_nil) (by
      rintro gid branchId action - tx now - hI hnew _ ⟨⟩
      exact Integrity.distinct_withBranch action now (hI tx rfl) hnew)
    exact serveAll_distinct exec rs (serve_sound exec h r) (serve_keeps hsafe h hd)

/-- The branch is not prepared, and no call can prepare it: it is registered, or its try is spent. -/
def Closed (st : Kv) (g b : String) : Prop := ¬ Pending st g b ∧ (Registered st g b ∨ MarkedFor st g b .tryPhase)

/-- **A call keeps a branch closed.** -/
theorem serve_closed (exec : ExecConfig) {st : Kv} (h : Sound st) {g b : String} (hst : Closed st g b)
    {r : Request × World} (hr : r.1.IsCall) (hw : r.2.Reliable) : Closed (serve exec st r).2 g b := by
  obtain ⟨hpending, hor⟩ := hst
  obtain ⟨r, w⟩ := r
  constructor
  · rintro ⟨tx', htx', hp⟩
    rw [serve_record exec h r hw g] at htx'
    split at htx'
    · rename_i hg
      obtain ⟨rfl, hfree⟩ := hg
      obtain ⟨tx, htx⟩ := record_of_effect hr htx'
      rw [htx] at htx'
      rcases pending_effect hr htx' hp with hp | ⟨hb, gid, action, rfl⟩
      · exact hpending ⟨tx, htx, hp⟩
      · rcases hor with ⟨tx'', htx'', hb'⟩ | hm
        · cases htx.symm.trans htx''
          exact hb hb'
        · exact absurd (hm.symm.trans hfree) (by decide)
    · exact hpending ⟨tx', htx', hp⟩
  · rcases hor with hb | hm
    · refine .inl (serve_registered exec h hb ?_)
      rintro ⟨hs, -⟩
      cases r <;> first | exact hs | exact hr
    · exact .inr (serve_isSome exec _ hm)

theorem serveAll_closed (exec : ExecConfig) :
    ∀ (rs : List (Request × World)) {st : Kv}, Sound st → ∀ {g b : String}, Closed st g b →
    (∀ r ∈ rs, r.1.IsCall ∧ r.2.Reliable) → Closed (serveAll exec st rs) g b
  | [], _, _, _, _, hst, _ => hst
  | r :: rs, _, h, _, _, hst, hrs => by
    obtain ⟨hr, hw⟩ := hrs r List.mem_cons_self
    exact serveAll_closed exec rs (serve_sound exec h r) (serve_closed exec h hst hr hw) fun r' hr' =>
      hrs r' (List.mem_cons_of_mem _ hr')

/-- The request is a try that leaves the branch prepared, or a submit that dispatches it. -/
def Hangs (exec : ExecConfig) (g b : String) (st : Kv) (r : Request × World) : Prop :=
  (∃ action, r.1 = .branchTry g b action) ∧ Pending (serve exec st r).2 g b ∨
    r.1 = .submit g ∧ ∃ c ∈ spawns ((script (r.1.handler exec) (.init r.2)).exec st).1, c.branchId = b

omit [SerdeJson] in
/-- What a handler dispatches is what its operation dispatches. -/
theorem exec_handler_spawns {operation : Server Unit} {c : Core BranchCall Error} {st : Kv} (a : Response) :
    spawns ((script (operation >>= fun _ => pure a) c).exec st).1 = spawns ((script operation c).exec st).1 := by
  rw [script_bind, Script.andThen, Script.exec_bind, spawns_append]
  split <;> exact List.append_nil _

/-- A submit dispatches calls of the record that it loads. -/
theorem mem_spawns_submit (exec : ExecConfig) {st : Kv} (h : Sound st) {g : String} {w : World} {c : BranchCall}
    (hc : c ∈ spawns ((script (Request.handler exec (.submit g)) (.init w)).exec st).1) :
    ∃ tx, record st g = some tx ∧ c ∈ tx.calls := by
  rw [Request.handler, exec_handler_spawns, script_submit] at hc
  have hc := mem_spawns_tryRead hc
  rw [h.lookup] at hc
  cases hr : record st g with
  | none =>
    rw [hr] at hc
    cases hc
  | some tx =>
    refine ⟨tx, rfl, ?_⟩
    rw [hr, Option.map_some, onRecord_toVec, submitRest] at hc
    have hc := mem_spawns_tryWrite hc
    rw [Script.exec_spawnAll, spawns_append, spawns_spawns] at hc
    refine (List.mem_append.mp hc).resolve_right fun hc => ?_
    -- two more saves
    cases mem_spawns_tryWrite (mem_spawns_tryWrite hc)

omit [SerdeJson] in
theorem pending_of_call {tx : GlobalTxn} {c : BranchCall} (hc : c ∈ tx.calls) : tx.Pending c.branchId := by
  obtain ⟨⟨x, i⟩, hp, rfl⟩ := List.mem_map.mp hc
  obtain ⟨hx, hs⟩ := List.mem_filter.mp hp
  exact ⟨x, List.fst_mem_of_mem_zipIdx hx, rfl, by simpa using hs⟩

/-- Nothing hangs of a closed branch. -/
theorem not_hangs_of_closed (exec : ExecConfig) {st : Kv} (h : Sound st) {g b : String} (hst : Closed st g b)
    {r : Request × World} (hr : r.1.IsCall) (hw : r.2.Reliable) : ¬ Hangs exec g b st r := by
  rintro (⟨-, hp⟩ | ⟨hs, c, hc, rfl⟩)
  · exact (serve_closed exec h hst hr hw).1 hp
  · rw [hs] at hc
    obtain ⟨tx, htx, hc⟩ := mem_spawns_submit exec h hc
    exact hst.1 ⟨tx, htx, pending_of_call hc⟩

/-- **A branch that is not closed hangs** at a try that comes next. -/
theorem hangs_of_not_closed (exec : ExecConfig) {st : Kv} (h : Sound st) {g b : String} (hg : (record st g).isSome)
    (hst : ¬ Closed st g b) (action : String) {w : World} (hw : w.Reliable) :
    Hangs exec g b st (.branchTry g b action, w) := by
  refine .inl ⟨⟨action, rfl⟩, ?_⟩
  obtain ⟨tx, htx⟩ := Option.isSome_iff_exists.mp hg
  have hrec := serve_record exec h (.branchTry g b action) hw g
  have heffect : (Request.branchTry g b action).effect w (some tx) = some (tx.added b action (w.clock 0)) := rfl
  by_cases hp : tx.Pending b
  · split at hrec
    · rw [htx, heffect] at hrec
      exact ⟨_, hrec, GlobalTxn.pending_added.mpr (.inl hp)⟩
    · exact ⟨tx, hrec.trans htx, hp⟩
  · -- the branch is not there, and the try is new
    have hn : ¬ Registered st g b ∧ ¬ MarkedFor st g b .tryPhase := by
      rw [← not_or]
      refine fun hor => hst ⟨?_, hor⟩
      rintro ⟨tx', htx', hp'⟩
      cases htx.symm.trans htx'
      exact hp hp'
    have hfree : Request.marked st (.branchTry g b action) = false := by
      exact Bool.eq_false_iff.mpr hn.2
    rw [if_pos ⟨rfl, hfree⟩, htx, heffect] at hrec
    exact ⟨_, hrec, GlobalTxn.pending_added.mpr (.inr ⟨rfl, fun hb => hn.1 ⟨tx, htx, hb⟩⟩)⟩

/-- The state in which a cancel is final. -/
def Final (st : Kv) (g b : String) : Prop :=
  Registered st g b ∧ (¬ MarkedFor st g b .cancel ∨ ¬ Pending st g b) ∨ ¬ Registered st g b ∧ MarkedFor st g b .tryPhase

/-- **A cancel closes its branch** exactly when it is final. -/
theorem closed_after_cancel (exec : ExecConfig) {st : Kv} (h : Sound st) (hd : DistinctIds st)
    {g b : String} {w : World} (hw : w.Reliable) :
    Closed (serve exec st (.branchFail g b, w)).2 g b ↔ Final st g b := by
  have hrec := serve_record exec h (.branchFail g b) hw g
  have hregistered : Registered (serve exec st (.branchFail g b, w)).2 g b ↔ Registered st g b := by
    refine ⟨?_, fun hb => serve_registered exec h hb fun hs => hs.1⟩
    rintro ⟨tx', htx', hb⟩
    rw [hrec] at htx'
    split at htx'
    · obtain ⟨tx, htx, rfl⟩ := Option.map_eq_some_iff.mp htx'
      refine ⟨tx, htx, hasBranch_of_labels ?_ hb⟩
      rw [← tx.labels_reported]
    · exact ⟨tx', htx', hb⟩
  have hmark : MarkedFor (serve exec st (.branchFail g b, w)).2 g b .tryPhase ↔ MarkedFor st g b .tryPhase := by
    rcases serve_marks exec h (.branchFail g b, w) g b .tryPhase with hl | hm
    · rw [MarkedFor, hl, MarkedFor]
    · have hkey := key_eq_iff.mp (asBytes_injective (Option.some.inj hm))
      cases hkey.2
  have hpending : Pending (serve exec st (.branchFail g b, w)).2 g b ↔ MarkedFor st g b .cancel ∧ Pending st g b := by
    cases hm : Request.marked st (.branchFail g b) with
    | true =>
      rw [if_neg fun hg => Bool.false_ne_true (hg.2.symm.trans hm)] at hrec
      rw [Pending, hrec]
      exact (and_iff_right hm).symm
    | false =>
      rw [if_pos ⟨rfl, hm⟩] at hrec
      refine iff_of_false ?_ fun hc => Bool.false_ne_true (hm.symm.trans hc.1)
      rintro ⟨tx', htx', hp⟩
      obtain ⟨tx, htx, rfl⟩ := Option.map_eq_some_iff.mp (hrec.symm.trans htx')
      exact GlobalTxn.not_pending_reported (hd g tx htx) (by simp) hp
  have hreg : Pending st g b → Registered st g b := fun ⟨tx, htx, hp⟩ => ⟨tx, htx, hp.hasBranch⟩
  rw [Closed, hregistered, hmark, hpending]
  by_cases hr : Registered st g b
  · simp only [hr, true_or, and_true, Final, not_true_eq_false, false_and, or_false, true_and, not_and_or]
  · have hp : ¬ Pending st g b := fun hp => hr (hreg hp)
    simp only [hr, hp, Final, and_false, not_false_eq_true, true_and, false_or, false_and]

/-- **No hanging try**: after a cancel that has been acknowledged, whatever calls come next, no try leaves the branch
prepared and no submit dispatches it, if and only if the cancel found the transaction in a state in which it is
final. -/
theorem no_hanging_iff (exec : ExecConfig) {pre : List (Request × World)} {g b : String}
    (hg : (record (serveAll exec ∅ pre) g).isSome) {w : World} (hw : w.Reliable) :
    (∀ (rs : List (Request × World)) (r : Request × World), (∀ r' ∈ rs ++ [r], r'.1.IsCall ∧ r'.2.Reliable) →
        ¬ Hangs exec g b (serveAll exec (serve exec (serveAll exec ∅ pre) (.branchFail g b, w)).2 rs) r) ↔
      Final (serveAll exec ∅ pre) g b := by
  have hsound : Sound (serveAll exec ∅ pre) := serveAll_sound exec pre sound_empty
  have hdistinct : DistinctIds (serveAll exec ∅ pre) :=
    serveAll_distinct exec pre sound_empty fun g tx htx => by simp [record] at htx
  have hsound' := serve_sound exec hsound (.branchFail g b, w)
  rw [← closed_after_cancel exec hsound hdistinct hw]
  constructor
  · intro h
    by_contra hn
    have hg' : (record (serve exec (serveAll exec ∅ pre) (.branchFail g b, w)).2 g).isSome := by
      rw [serve_record exec hsound _ hw]
      split
      · exact (Option.isSome_map ..).trans hg
      · exact hg
    apply h [] (.branchTry g b "", w) (by simpa using ⟨trivial, hw⟩)
    exact hangs_of_not_closed exec hsound' hg' hn "" hw
  · intro h rs r hrs
    have hclosed := serveAll_closed exec rs hsound' h fun r' hr' => hrs r' (List.mem_append_left _ hr')
    obtain ⟨hr, hwr⟩ := hrs r (List.mem_append_right _ (List.mem_singleton_self _))
    exact not_hangs_of_closed exec (serveAll_sound exec rs hsound') hclosed hr hwr

end Cancel

section Example

attribute [local instance] Json.serdeJson

/-- A cancel that overtakes the try. -/
theorem try_hangs : ¬ ∀ (exec : ExecConfig) (pre : List (Request × World)) (g b : String) (w : World),
    (∀ r ∈ pre.head?, Starts g r ∧ r.2.Reliable) → (∀ r ∈ pre.tail, r.1.IsCall ∧ r.2.Reliable) →
      (record (serveAll exec ∅ pre) g).isSome → w.Reliable → ∀ (rs : List (Request × World)) (r : Request × World),
        (∀ r' ∈ rs ++ [r], r'.1.IsCall ∧ r'.2.Reliable) →
          ¬ Hangs exec g b (serveAll exec (serve exec (serveAll exec ∅ pre) (.branchFail g b, w)).2 rs) r := by
  intro h
  have hpre : (record (serveAll .default ∅ [(.start "g" "tcc" [], .calm 1)]) "g").isSome := by
    rw [record_ledger .default (by simp [Env.Reliable, Env.calm])]
    decide +kernel
  have hend : record (serveAll .default ∅ [(.start "g" "tcc" [], .calm 1), (.branchFail "g" "b", .calm 2),
      (.branchTry "g" "b" "u", .calm 3)]) "g" = some ⟨"g", "tcc", .submitted, [], [⟨"b", "u", .prepared⟩], 3, 1⟩ := by
    rw [record_ledger .default (by simp [Env.Reliable, Env.calm])]
    decide +kernel
  apply h .default [(.start "g" "tcc" [], .calm 1)] "g" "b" (.calm 2)
    (by simp [Starts, Request.IsStart, Request.gid, Env.Reliable, Env.calm]) (by simp) hpre
    (by simp [Env.Reliable, Env.calm]) [] (.branchTry "g" "b" "u", .calm 3)
      (by simp [Request.IsCall, Env.Reliable, Env.calm])
  exact .inl ⟨⟨"u", rfl⟩, _, hend, _, List.mem_singleton_self _, rfl, rfl⟩

/-- A cancel after the try is final. -/
theorem cancel_final : ¬ Hangs .default "g" "b"
    (serveAll .default (serve .default (serveAll .default ∅ [(.start "g" "tcc" [], .calm 1),
      (.branchTry "g" "b" "u", .calm 2)])
      (.branchFail "g" "b", .calm 3)).2 [(.submit "g", .calm 4)]) (.branchTry "g" "b" "v", .calm 5) := by
  have hw : ∀ r ∈ ([(.start "g" "tcc" [], .calm 1), (.branchTry "g" "b" "u", .calm 2)] : List (Request × World)),
      r.2.Reliable := by
    simp [Env.Reliable, Env.calm]
  have hpre : record (serveAll .default ∅ [(.start "g" "tcc" [], .calm 1), (.branchTry "g" "b" "u", .calm 2)]) "g" =
      some ⟨"g", "tcc", .submitted, [], [⟨"b", "u", .prepared⟩], 2, 1⟩ := by
    rw [record_ledger .default hw]
    decide +kernel
  have hmark : Request.marked (serveAll .default ∅ [(.start "g" "tcc" [], .calm 1), (.branchTry "g" "b" "u", .calm 2)])
      (.branchFail "g" "b") = false := by
    rw [marked_ledger .default hw]
    decide +kernel
  have hfinal : Final (serveAll .default ∅ [(.start "g" "tcc" [], .calm 1),
      (.branchTry "g" "b" "u", .calm 2)]) "g" "b" :=
    .inl ⟨⟨_, hpre, rfl⟩, .inl fun hm => Bool.false_ne_true (hmark.symm.trans (marked_branchFail.mpr hm))⟩
  exact (no_hanging_iff .default (by rw [hpre]; rfl) (by simp [Env.Reliable, Env.calm])).mpr hfinal _ _
    (by simp [Request.IsCall, Env.Reliable, Env.calm])

end Example

end Seata
