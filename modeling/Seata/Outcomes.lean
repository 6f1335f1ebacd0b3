import Seata.Ledger
import Mathlib.Tactic.IntervalCases

/-!
# Committed, and for good?

Two things that a client may expect of a terminal status, and exactly when complete requests keep them.

- `Honest`: a committed transaction has only succeeded branches. A new branch, or a failure reported for an old one,
  spoils it when the transaction is committed already (`Spoils`), and nothing else does (`honest_iff`).
- A terminal status stays. No operation looks at the status before it writes one, so a start, an abort after a commit,
  and a submit with another outcome change it (`Reverses`), and nothing else does (`terminal_iff`).
-/

namespace Seata

open Async

/-! ## Committed means succeeded -/

/-- If the transaction is committed, all its branches have succeeded. -/
def GlobalTxn.Honest (tx : GlobalTxn) : Prop := tx.status = .committed → ∀ b ∈ tx.branches, b.status = .succeed

/-- The request brings a branch that has not succeeded to the record. -/
def Request.Spoils : Request → GlobalTxn → Prop
  | .addBranch _ branchId _, tx => ¬ tx.hasBranch branchId = true
  | .branchTry _ branchId _, tx => ¬ tx.hasBranch branchId = true
  | .branchFail _ branchId, tx => tx.hasBranch branchId = true
  | _, _ => False

theorem submitted_honest (tx : GlobalTxn) (w : World) : (tx.submitted w).Honest :=
  (GlobalTxn.finalized_terminal (tx.outcomes_resolved w) _).succeeded

theorem added_honest {tx : GlobalTxn} (h : tx.Honest) {branchId : String} (action : String) (now : Int)
    (hs : tx.status = .committed → tx.hasBranch branchId = true) : (tx.added branchId action now).Honest := by
  intro hc
  rw [GlobalTxn.added_status] at hc
  rw [GlobalTxn.added, if_pos (hs hc)]
  exact h hc

theorem reported_honest {tx : GlobalTxn} (h : tx.Honest) {status : BranchStatus} {branchId : String} (now : Int)
    (hs : tx.status = .committed → tx.hasBranch branchId = true → status = .succeed) :
    (tx.reported status branchId now).Honest := by
  intro hc b hb
  rw [GlobalTxn.reported_status] at hc
  rcases GlobalTxn.mem_reported hb with hb | ⟨hst, hm⟩
  · exact h hc b hb
  · rw [hst, hs hc hm]

/-- A request that does not spoil the record leaves it honest. -/
theorem effect_honest {r : Request} {w : World} {o : Option GlobalTxn} (h : ∀ tx, o = some tx → tx.Honest)
    (hs : ∀ tx, o = some tx → tx.status = .committed → ¬ r.Spoils tx) {tx' : GlobalTxn}
    (htx' : r.effect w o = some tx') :
    tx'.Honest := by
  cases r with
  | start gid mode payload =>
    cases htx'
    exact fun hc => nomatch hc
  | submit gid =>
    obtain ⟨tx, rfl, rfl⟩ := Option.map_eq_some_iff.mp htx'
    exact submitted_honest tx w
  | abort gid =>
    obtain ⟨tx, rfl, rfl⟩ := Option.map_eq_some_iff.mp htx'
    exact fun hc => nomatch hc
  | addBranch gid branchId action =>
    obtain ⟨tx, rfl, rfl⟩ := Option.map_eq_some_iff.mp htx'
    exact added_honest (h tx rfl) _ _ fun hc => not_not.mp (hs tx rfl hc)
  | branchTry gid branchId action =>
    obtain ⟨tx, rfl, rfl⟩ := Option.map_eq_some_iff.mp htx'
    exact added_honest (h tx rfl) _ _ fun hc => not_not.mp (hs tx rfl hc)
  | branchSucceed gid branchId =>
    obtain ⟨tx, rfl, rfl⟩ := Option.map_eq_some_iff.mp htx'
    exact reported_honest (h tx rfl) _ fun _ _ => rfl
  | branchFail gid branchId =>
    obtain ⟨tx, rfl, rfl⟩ := Option.map_eq_some_iff.mp htx'
    exact reported_honest (h tx rfl) _ fun hc hb => absurd hb (hs tx rfl hc)

/-- A request that spoils a committed record leaves it committed. -/
theorem effect_spoiled {r : Request} (w : World) {tx : GlobalTxn} (hc : tx.status = .committed) (hs : r.Spoils tx) :
    ∃ tx', r.effect w (some tx) = some tx' ∧ ¬ tx'.Honest := by
  have hadd {branchId : String} (action : String) (hb : ¬ tx.hasBranch branchId = true) :
      ¬ (tx.added branchId action (w.clock 0)).Honest := by
    intro h
    have hm : ⟨branchId, action, .prepared⟩ ∈ (tx.added branchId action (w.clock 0)).branches := by
      rw [GlobalTxn.added, if_neg hb, GlobalTxn.withBranch]
      exact List.mem_append_right _ (List.mem_singleton_self _)
    exact absurd (h (by rw [GlobalTxn.added_status, hc]) _ hm) (by simp)
  cases r with
  | addBranch gid branchId action => exact ⟨_, rfl, hadd action hs⟩
  | branchTry gid branchId action => exact ⟨_, rfl, hadd action hs⟩
  | branchFail gid branchId =>
    refine ⟨_, rfl, fun h => ?_⟩
    obtain ⟨b, hb, -, hst⟩ := GlobalTxn.reported_mem .failed (w.clock 0) hs
    have hsucc := h (by rw [GlobalTxn.reported_status, hc]) b hb
    rw [hst] at hsucc
    cases hsucc
  | _ => exact hs.elim

section Runs

variable [SerdeJson]

/-- Every committed transaction has only succeeded branches. -/
def Honest (st : Kv) : Prop := ∀ g tx, record st g = some tx → tx.Honest

/-- The request spoils a committed transaction. -/
def Spoils (st : Kv) (r : Request × World) : Prop :=
  r.1.marked st = false ∧ ∃ tx, record st (r.1.gid r.2) = some tx ∧ tx.status = .committed ∧ r.1.Spoils tx

theorem serve_honest (exec : ExecConfig) {st : Kv} (h : Sound st) {r : Request × World} (hw : r.2.Reliable)
    (hst : Honest st) :
    Honest (serve exec st r).2 ↔ ¬ Spoils st r := by
  obtain ⟨r, w⟩ := r
  have hrec := serve_record exec h r hw
  constructor
  · rintro hh ⟨hm, tx, htx, hc, hs⟩
    obtain ⟨tx', htx', hn⟩ := effect_spoiled w hc hs
    refine hn (hh (r.gid w) tx' ?_)
    rw [hrec, if_pos ⟨rfl, hm⟩, htx, htx']
  · intro hs g tx' htx'
    rw [hrec] at htx'
    split at htx'
    · rename_i hg
      refine effect_honest (hst g) (fun tx htx hc hsp => hs ⟨hg.2, tx, ?_, hc, hsp⟩) htx'
      rw [← hg.1, htx]
    · exact hst g tx' htx'

/-- **Committed means succeeded** all along a run exactly when no request of it spoils a committed transaction. -/
theorem honest_iff (exec : ExecConfig) {rs : List (Request × World)} (hrs : ∀ r ∈ rs, r.2.Reliable) :
    (∀ n, Honest (serveAll exec ∅ (rs.take n))) ↔
      ∀ i (hi : i < rs.length), ¬ Spoils (serveAll exec ∅ (rs.take i)) rs[i] :=
  serveAll_iff exec (fun _ _ h hw hst => serve_honest exec h hw hst) sound_empty
    (fun g tx htx => by simp [record] at htx) hrs

end Runs

section Example

attribute [local instance] Json.serdeJson

/-- A branch that is added to a committed transaction. -/
theorem committed_with_prepared : ¬ ∀ (exec : ExecConfig) (rs : List (Request × World)), (∀ r ∈ rs, r.2.Reliable) →
    Honest (serveAll exec ∅ rs) := by
  intro h
  have hr : record (serveAll .default ∅ [(.start "g" "" [], .calm 1), (.submit "g", .calm 2),
    (.addBranch "g" "b" "u", .calm 3)])
      "g" = some ⟨"g", "saga", .committed, [], [⟨"b", "u", .prepared⟩], 3, 1⟩ := by
    rw [record_ledger .default (by simp [Env.Reliable, Env.calm])]
    decide +kernel
  have hb := h .default _ (by simp [Env.Reliable, Env.calm]) "g" _ hr rfl _ (List.mem_singleton_self _)
  cases hb

/-- A run without such requests. -/
theorem honest_commit : Honest (serveAll .default ∅
    [(.start "g" "" [], .calm 1), (.addBranch "g" "b" "u", .calm 2), (.submit "g", .calm 3)]) := by
  have hall : ∀ n, Honest (serveAll .default ∅
      (List.take n [(.start "g" "" [], .calm 1), (.addBranch "g" "b" "u", .calm 2), (.submit "g", .calm 3)])) := by
    apply (honest_iff .default (by simp [Env.Reliable, Env.calm])).mpr
    rintro i hi ⟨-, tx, htx, hc, hs⟩
    have hi : i < 3 := hi
    interval_cases i
    · exact hs
    · have hr : record (serveAll .default ∅ [(.start "g" "" [], .calm 1)]) "g" =
          some ⟨"g", "saga", .submitted, [], [], 1, 1⟩ := by
        rw [record_ledger .default (by simp [Env.Reliable, Env.calm])]
        decide +kernel
      cases hr.symm.trans htx
      cases hc
    · exact hs
  have hend := hall 3
  rwa [List.take_of_length_le (by simp)] at hend

end Example

/-! ## A terminal status stays -/

/-- The request gives a terminal transaction another status. -/
def Request.Reverses (w : World) : Request → GlobalTxn → Prop
  | .start _ _ _, _ => True
  | .abort _, tx => tx.status = .committed
  | .submit _, tx => tx.status = .committed ↔ ¬ ∀ b ∈ tx.outcomes w, b.status = .succeed
  | _, _ => False

theorem submitted_status (tx : GlobalTxn) (w : World) :
    (tx.submitted w).status = if ∀ b ∈ tx.outcomes w, b.status = .succeed then .committed else .aborted :=
  finalStatus_resolved (tx.outcomes_resolved w)

/-- What a request makes of the status of a terminal transaction. -/
theorem effect_status (r : Request) (w : World) {tx : GlobalTxn} (ht : tx.status = .committed ∨ tx.status = .aborted) :
    ∃ tx', r.effect w (some tx) = some tx' ∧ (tx'.status = tx.status ↔ ¬ r.Reverses w tx) := by
  cases r with
  | start gid mode payload =>
    have hs : tx.status ≠ .submitted := by rcases ht with ht | ht <;> rw [ht] <;> decide
    exact ⟨_, rfl, iff_of_false (fun h => hs h.symm) (not_not.mpr trivial)⟩
  | submit gid =>
    refine ⟨_, rfl, ?_⟩
    rw [submitted_status, Request.Reverses]
    by_cases ha : ∀ b ∈ tx.outcomes w, b.status = .succeed <;> rcases ht with ht | ht <;> simp [ht, ha]
  | abort gid =>
    refine ⟨_, rfl, ?_⟩
    rcases ht with ht | ht <;> simp [ht, GlobalTxn.aborted, Request.Reverses]
  | addBranch gid branchId action => exact ⟨_, rfl, iff_of_true (tx.added_status _ _ _) id⟩
  | branchTry gid branchId action => exact ⟨_, rfl, iff_of_true (tx.added_status _ _ _) id⟩
  | branchSucceed gid branchId => exact ⟨_, rfl, iff_of_true (tx.reported_status _ _ _) id⟩
  | branchFail gid branchId => exact ⟨_, rfl, iff_of_true (tx.reported_status _ _ _) id⟩

section Runs

variable [SerdeJson]

/-- The transaction `g` is stored with the status `σ`. -/
def HasStatus (g : String) (σ : GlobalStatus) (st : Kv) : Prop := ∃ tx, record st g = some tx ∧ tx.status = σ

/-- The request reverses the outcome of `g`. -/
def Reverses (g : String) (st : Kv) (r : Request × World) : Prop :=
  r.1.gid r.2 = g ∧ ∃ tx, record st g = some tx ∧ r.1.Reverses r.2 tx

omit [SerdeJson] in
theorem unmarked_of_reverses {r : Request} {w : World} {tx : GlobalTxn} (h : r.Reverses w tx) (st : Kv) :
    r.marked st = false := by
  cases r with
  | branchTry | branchSucceed | branchFail => exact h.elim
  | _ => exact marked_none rfl

theorem serve_status (exec : ExecConfig) {g : String} {σ : GlobalStatus} (hσ : σ = .committed ∨ σ = .aborted) {st : Kv}
    (h : Sound st) {r : Request × World} (hw : r.2.Reliable) (hst : HasStatus g σ st) :
    HasStatus g σ (serve exec st r).2 ↔ ¬ Reverses g st r := by
  obtain ⟨r, w⟩ := r
  obtain ⟨tx, htx, rfl⟩ := hst
  obtain ⟨tx', htx', hiff⟩ := effect_status r w hσ
  have hrec := serve_record exec h r hw g
  by_cases hg : g = r.gid w ∧ r.marked st = false
  · rw [if_pos hg, htx, htx'] at hrec
    constructor
    · rintro ⟨t, ht, hs⟩ ⟨-, t', ht', hrev⟩
      cases hrec.symm.trans ht
      cases htx.symm.trans ht'
      exact hiff.mp hs hrev
    · intro hn
      exact ⟨tx', hrec, hiff.mpr fun hrev => hn ⟨hg.1.symm, tx, htx, hrev⟩⟩
  · rw [if_neg hg] at hrec
    refine iff_of_true ⟨tx, hrec.trans htx, rfl⟩ ?_
    rintro ⟨hg', t, -, hrev⟩
    exact hg ⟨hg'.symm, unmarked_of_reverses hrev st⟩

/-- **A terminal status stays** all along a run exactly when no request of it reverses the outcome. -/
theorem terminal_iff (exec : ExecConfig) {pre : List (Request × World)} {g : String} {tx : GlobalTxn}
    (htx : record (serveAll exec ∅ pre) g = some tx) (ht : tx.status = .committed ∨ tx.status = .aborted)
    {rs : List (Request × World)} (hrs : ∀ r ∈ rs, r.2.Reliable) :
    (∀ n, HasStatus g tx.status (serveAll exec (serveAll exec ∅ pre) (rs.take n))) ↔
      ∀ i (hi : i < rs.length), ¬ Reverses g (serveAll exec (serveAll exec ∅ pre) (rs.take i)) rs[i] :=
  serveAll_iff exec (fun _ _ h hw hst => serve_status exec ht h hw hst) (serveAll_sound exec pre sound_empty)
    ⟨tx, htx, rfl⟩ hrs

end Runs

section Example

attribute [local instance] Json.serdeJson

/-- An abort of a committed transaction. -/
theorem committed_then_aborted :
    ¬ ∀ (exec : ExecConfig) (pre rs : List (Request × World)) (g : String) (tx : GlobalTxn),
    (∀ r ∈ pre, r.2.Reliable) → (∀ r ∈ rs, r.2.Reliable) → record (serveAll exec ∅ pre) g = some tx →
    (tx.status = .committed ∨ tx.status = .aborted) →
      HasStatus g tx.status (serveAll exec (serveAll exec ∅ pre) rs) := by
  intro h
  have hpre : record (serveAll .default ∅ [(.start "g" "" [], .calm 1), (.submit "g", .calm 2)]) "g" =
      some ⟨"g", "saga", .committed, [], [], 2, 1⟩ := by
    rw [record_ledger .default (by simp [Env.Reliable, Env.calm])]
    decide +kernel
  have hend : record (serveAll .default (serveAll .default ∅ [(.start "g" "" [], .calm 1), (.submit "g", .calm 2)])
      [(.abort "g", .calm 3)]) "g" = some ⟨"g", "saga", .aborted, [], [], 3, 1⟩ := by
    rw [← serveAll_append, record_ledger .default (by simp [Env.Reliable, Env.calm])]
    decide +kernel
  obtain ⟨tx', htx', hs⟩ := h .default _ [(.abort "g", .calm 3)] "g" _ (by simp [Env.Reliable, Env.calm])
    (by simp [Env.Reliable, Env.calm]) hpre (.inl rfl)
  cases hend.symm.trans htx'
  cases hs

/-- A committed transaction that is submitted again. -/
theorem committed_stays : HasStatus "g" .committed (serveAll .default
    (serveAll .default ∅ [(.start "g" "" [], .calm 1), (.submit "g", .calm 2)]) [(.submit "g", .calm 3)]) := by
  have hpre : record (serveAll .default ∅ [(.start "g" "" [], .calm 1), (.submit "g", .calm 2)]) "g" =
      some ⟨"g", "saga", .committed, [], [], 2, 1⟩ := by
    rw [record_ledger .default (by simp [Env.Reliable, Env.calm])]
    decide +kernel
  have hall : ∀ n, HasStatus "g" .committed (serveAll .default
      (serveAll .default ∅ [(.start "g" "" [], .calm 1), (.submit "g", .calm 2)])
        (List.take n [(.submit "g", .calm 3)])) := by
    apply (terminal_iff .default hpre (.inl rfl) (by simp [Env.Reliable, Env.calm])).mpr
    rintro i hi ⟨-, tx, htx, hr⟩
    obtain rfl : i = 0 := by simpa using hi
    rw [List.take_zero, serveAll_nil, hpre] at htx
    cases htx
    exact hr.mp rfl (by simp [GlobalTxn.outcomes])
  have hend := hall 1
  rwa [List.take_of_length_le (by simp)] at hend

end Example

end Seata
