import Seata.Ledger
import Mathlib.Tactic.IntervalCases

/-!
# What may be retried

Complete requests one after the other, some of them repeats of earlier ones.

- A branch handler that is called again with the same gid and branch id finds its mark, which nothing removes from the
  store, and does nothing: the repeated call can be deleted from the sequence (`redelivery_idempotent`).
- A start that is repeated has no mark. It replaces the record by a new one, and that is the only way in which a branch
  can leave its record (`registrations_iff`).
-/

namespace Seata

open Async

/-! ## Repeated handler calls -/

/-- A later call of the same handler with the same gid and branch id, whatever its action. -/
def Request.Repeats : Request → Request → Prop
  | .branchTry g b _, .branchTry g' b' _ => g = g' ∧ b = b'
  | .branchSucceed g b, .branchSucceed g' b' => g = g' ∧ b = b'
  | .branchFail g b, .branchFail g' b' => g = g' ∧ b = b'
  | _, _ => False

theorem Request.Repeats.mark {r r' : Request} (h : r.Repeats r') : ∃ k, r.mark = some k ∧ r'.mark = some k := by
  cases r <;> cases r' <;> first | exact h.elim | obtain ⟨rfl, rfl⟩ := h
  all_goals exact ⟨_, rfl, rfl⟩

section Responses

variable [SerdeJson] {st : Kv} {k : Bytes}

/-- What the requests of a sequence return. -/
def responses (exec : ExecConfig) : Kv → List (Request × World) → List (Except Error Response)
  | _, [] => []
  | st, r :: rs => (serve exec st r).1 :: responses exec (serve exec st r).2 rs

theorem length_responses (exec : ExecConfig) : ∀ (rs : List (Request × World)) (st : Kv),
    (responses exec st rs).length = rs.length
  | [], _ => rfl
  | _ :: rs, _ => congrArg (· + 1) (length_responses exec rs _)

theorem responses_append (exec : ExecConfig) (rs' : List (Request × World)) : ∀ (rs : List (Request × World)) (st : Kv),
    responses exec st (rs ++ rs') = responses exec st rs ++ responses exec (serveAll exec st rs) rs'
  | [], _ => rfl
  | r :: rs, st => congrArg ((serve exec st r).1 :: ·) (responses_append exec rs' rs _)

/-- A mark that is there after some requests is there after more of them. -/
theorem serveAll_take_isSome (exec : ExecConfig) {rs : List (Request × World)} {m n : Nat} (hmn : m ≤ n)
    (h : ((serveAll exec st (rs.take m)).lookup k).isSome) : ((serveAll exec st (rs.take n)).lookup k).isSome := by
  have hsplit : rs.take n = rs.take m ++ (rs.take n).drop m := by
    conv_lhs => rw [← List.take_append_drop m (rs.take n), List.take_take, min_eq_left hmn]
  rw [hsplit, serveAll_append]
  exact serveAll_isSome exec _ h

/-- **Redelivery is idempotent**: a call that repeats an earlier one can be deleted from the sequence. -/
theorem redelivery_idempotent (exec : ExecConfig) (st : Kv) {i j : Nat} {rs : List (Request × World)} (hij : i < j)
    (hj : j < rs.length) (hw : ∀ r ∈ rs, r.2.Reliable) (h : (rs[i]).1.Repeats (rs[j]).1) :
    serveAll exec st (rs.eraseIdx j) = serveAll exec st rs ∧
      responses exec st (rs.eraseIdx j) = (responses exec st rs).eraseIdx j := by
  obtain ⟨k, hki, hkj⟩ := h.mark
  -- the mark of the earlier call is in the store when the repeated one comes
  have hmark : ((serveAll exec st (rs.take j)).lookup k).isSome := by
    have hw := hw _ (List.getElem_mem (i.lt_trans hij hj))
    apply serveAll_take_isSome exec hij
    rw [serveAll_take_succ exec st (i.lt_trans hij hj)]
    exact serve_marks_own exec (hw 0) (hw 1) hki
  have hnop : (serve exec (serveAll exec st (rs.take j)) rs[j]).2 = serveAll exec st (rs.take j) :=
    serve_marked exec hkj hmark
  have hrs : rs = rs.take j ++ rs[j] :: rs.drop (j + 1) := by
    rw [← List.drop_eq_getElem_cons hj, List.take_append_drop]
  have hlen : (responses exec st (rs.take j)).length = j := by
    rw [length_responses, List.length_take, min_eq_left hj.le]
  rw [List.eraseIdx_eq_take_drop_succ]
  constructor
  · conv_rhs => rw [hrs, serveAll_append]
    rw [serveAll_append]
    show _ = serveAll exec (serve exec _ rs[j]).2 _
    rw [hnop]
  · conv_rhs => rw [hrs, responses_append, List.eraseIdx_append_of_length_le hlen.le, hlen, Nat.sub_self]
    rw [responses_append]
    show _ = _ ++ responses exec (serve exec _ rs[j]).2 _
    rw [hnop]

end Responses

section Example

attribute [local instance] Json.serdeJson

/-- A try that is delivered again after a submit, with another action. -/
theorem redelivery_idempotent_try :
    let rs : List (Request × World) :=
      [(.start "g" "" [], .calm 1), (.branchTry "g" "b" "u", .calm 2), (.submit "g", .calm 3),
      (.branchTry "g" "b" "v", .calm 4)]
    serveAll .default ∅ (rs.eraseIdx 3) = serveAll .default ∅ rs ∧
      responses .default ∅ (rs.eraseIdx 3) = (responses .default ∅ rs).eraseIdx 3 :=
  redelivery_idempotent .default ∅ (i := 1) (by decide) (by decide) (by simp [Env.Reliable, Env.calm]) ⟨rfl, rfl⟩

end Example

/-! ## Repeated starts -/

/-- The ids and actions of the branches, in order. -/
def GlobalTxn.labels (tx : GlobalTxn) : List (String × String) := tx.branches.map BranchTxn.label

theorem GlobalTxn.labels_eq {a b : GlobalTxn} (h : a.frame = b.frame) : a.labels = b.labels := congrArg Frame.branches h

theorem GlobalTxn.labels_added (tx : GlobalTxn) (branchId action : String) (now : Int) :
    tx.labels <+: (tx.added branchId action now).labels := by
  unfold GlobalTxn.added
  split
  · exact List.prefix_rfl
  · simp [GlobalTxn.labels, GlobalTxn.withBranch]

theorem GlobalTxn.labels_reported (tx : GlobalTxn) (status : BranchStatus) (branchId : String) (now : Int) :
    tx.labels = (tx.reported status branchId now).labels := by
  unfold GlobalTxn.reported
  split
  · rfl
  · rename_i bs hbs
    exact GlobalTxn.labels_eq (GlobalTxn.withBranches_frame hbs).symm

theorem GlobalTxn.labels_submitted (tx : GlobalTxn) (w : World) : tx.labels = (tx.submitted w).labels := by
  apply GlobalTxn.labels_eq
  rw [GlobalTxn.submitted, GlobalTxn.finalized_frame, GlobalTxn.decided_frame, GlobalTxn.committing_frame]

/-- The request starts a transaction. -/
def Request.IsStart : Request → Prop
  | .start _ _ _ => True
  | _ => False

/-- Every request but a start keeps the branches of the record. -/
theorem effect_labels {r : Request} (w : World) (tx : GlobalTxn) (h : ¬ r.IsStart) :
    ∃ tx', r.effect w (some tx) = some tx' ∧ tx.labels <+: tx'.labels := by
  cases r with
  | start gid mode payload => exact absurd trivial h
  | submit gid => exact ⟨_, rfl, tx.labels_submitted w ▸ List.prefix_rfl⟩
  | abort gid => exact ⟨_, rfl, GlobalTxn.labels_eq (tx.aborted_frame _) ▸ List.prefix_rfl⟩
  | addBranch gid branchId action => exact ⟨_, rfl, tx.labels_added _ _ _⟩
  | branchTry gid branchId action => exact ⟨_, rfl, tx.labels_added _ _ _⟩
  | branchSucceed gid branchId => exact ⟨_, rfl, tx.labels_reported _ _ _ ▸ List.prefix_rfl⟩
  | branchFail gid branchId => exact ⟨_, rfl, tx.labels_reported _ _ _ ▸ List.prefix_rfl⟩

section Runs

variable [SerdeJson]

/-- Every record of `st` is still there in `st'`, with its branches first and in order. -/
def Retains (st st' : Kv) : Prop :=
  ∀ g tx, record st g = some tx → ∃ tx', record st' g = some tx' ∧ tx.labels <+: tx'.labels

theorem Retains.refl (st : Kv) : Retains st st := fun _ tx h => ⟨tx, h, List.prefix_rfl⟩

theorem Retains.trans {st st' st'' : Kv} (h : Retains st st') (h' : Retains st' st'') : Retains st st'' := by
  intro g tx htx
  obtain ⟨tx', htx', hp⟩ := h g tx htx
  obtain ⟨tx'', htx'', hp'⟩ := h' g tx' htx'
  exact ⟨tx'', htx'', hp.trans hp'⟩

/-- The request starts a transaction that is stored with a branch. -/
def Restarts (st : Kv) (r : Request × World) : Prop :=
  r.1.IsStart ∧ ∃ tx, record st (r.1.gid r.2) = some tx ∧ tx.branches ≠ []

/-- **One request** loses a branch exactly when it restarts a transaction that has one. -/
theorem serve_retains (exec : ExecConfig) {st : Kv} (h : Sound st) {r : Request × World} (hw : r.2.Reliable) :
    Retains st (serve exec st r).2 ↔ ¬ Restarts st r := by
  obtain ⟨r, w⟩ := r
  have hrec := serve_record exec h r hw
  constructor
  · rintro hr ⟨hs, tx, htx, hne⟩
    obtain ⟨tx', htx', hp⟩ := hr _ tx htx
    cases r with
    | start gid mode payload =>
      rw [hrec, if_pos ⟨rfl, marked_none rfl⟩] at htx'
      cases htx'
      exact hne (List.map_eq_nil_iff.mp (List.prefix_nil.mp hp))
    | _ => exact hs
  · intro hn g tx htx
    by_cases hg : g = r.gid w ∧ r.marked st = false
    · rw [hrec, if_pos hg, htx]
      by_cases hs : r.IsStart
      · have hnil : tx.branches = [] := by
          by_contra hne
          exact hn ⟨hs, tx, hg.1 ▸ htx, hne⟩
        cases r with
        | start gid mode payload =>
          refine ⟨_, rfl, ?_⟩
          rw [GlobalTxn.labels, hnil]
          exact List.nil_prefix
        | _ => exact hs.elim
      · exact effect_labels w tx hs
    · exact ⟨tx, by rw [hrec, if_neg hg, htx], List.prefix_rfl⟩

/-- **Registered branches stay** all along a run exactly when no start of it restarts a transaction with a branch. -/
theorem registrations_iff (exec : ExecConfig) {rs : List (Request × World)} (hrs : ∀ r ∈ rs, r.2.Reliable) :
    (∀ m n, m ≤ n → Retains (serveAll exec ∅ (rs.take m)) (serveAll exec ∅ (rs.take n))) ↔
      ∀ i (hi : i < rs.length), ¬ Restarts (serveAll exec ∅ (rs.take i)) rs[i] := by
  have hstep (i : Nat) (hi : i < rs.length) : Retains (serveAll exec ∅ (rs.take i))
    (serveAll exec ∅ (rs.take (i + 1))) ↔
      ¬ Restarts (serveAll exec ∅ (rs.take i)) rs[i] := by
    rw [serveAll_take_succ exec ∅ hi]
    exact serve_retains exec (serveAll_sound exec _ sound_empty) (hrs _ (List.getElem_mem hi))
  constructor
  · exact fun h i hi => (hstep i hi).mp (h i (i + 1) (Nat.le_succ i))
  · intro h m n hmn
    induction n, hmn using Nat.le_induction with
    | base => exact Retains.refl _
    | succ n _ ih =>
      by_cases hn : n < rs.length
      · exact ih.trans ((hstep n hn).mpr (h n hn))
      · have heq : rs.take (n + 1) = rs.take n := by
          rw [List.take_of_length_le (by omega), List.take_of_length_le (by omega)]
        rwa [heq]

end Runs

section Example

attribute [local instance] Json.serdeJson

/-- A client that repeats its start. -/
theorem branch_lost : ¬ ∀ (exec : ExecConfig) (rs : List (Request × World)), (∀ r ∈ rs, r.2.Reliable) →
    ∀ n, Retains (serveAll exec ∅ (rs.take n)) (serveAll exec ∅ (rs.take (n + 1))) := by
  intro h
  have hlost := h .default [(.start "g" "" [], .calm 1), (.addBranch "g" "b" "u", .calm 2), (.start "g" "" [], .calm 3)]
    (by simp [Env.Reliable, Env.calm]) 2
  have hbefore : record (serveAll .default ∅ [(.start "g" "" [], .calm 1), (.addBranch "g" "b" "u", .calm 2)]) "g" =
      some ⟨"g", "saga", .submitted, [], [⟨"b", "u", .prepared⟩], 2, 1⟩ := by
    rw [record_ledger .default (by simp [Env.Reliable, Env.calm])]
    decide +kernel
  have hafter : record (serveAll .default ∅ [(.start "g" "" [], .calm 1), (.addBranch "g" "b" "u", .calm 2),
      (.start "g" "" [], .calm 3)]) "g" = some ⟨"g", "saga", .submitted, [], [], 3, 3⟩ := by
    rw [record_ledger .default (by simp [Env.Reliable, Env.calm])]
    decide +kernel
  obtain ⟨tx', htx', hp⟩ := hlost "g" _ hbefore
  cases hafter.symm.trans htx'
  exact absurd hp (by decide)

/-- A start that is repeated before there is a branch. -/
def startedTwice : List (Request × World) :=
  [(.start "g" "" [], .calm 1), (.start "g" "" [], .calm 2), (.addBranch "g" "b" "u", .calm 3)]

theorem registrations_kept :
    Retains (serveAll .default ∅ (startedTwice.take 1)) (serveAll .default ∅ (startedTwice.take 3)) := by
  have hrs : ∀ r ∈ startedTwice, r.2.Reliable := by simp [startedTwice, Env.Reliable, Env.calm]
  apply (registrations_iff .default hrs).mpr ?_ 1 3 (by decide)
  rintro i hi ⟨hs, tx, htx, hne⟩
  have hi : i < 3 := hi
  interval_cases i
  · simp [record] at htx
  · have hr : record (serveAll .default ∅ (startedTwice.take 1)) "g" =
        some ⟨"g", "saga", .submitted, [], [], 1, 1⟩ := by
      rw [record_ledger .default fun r hr => hrs r (List.mem_of_mem_take hr)]
      decide +kernel
    cases hr.symm.trans htx
    exact hne rfl
  · exact hs

end Example

end Seata
