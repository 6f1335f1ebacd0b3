import Seata.Sequential

/-!
# Record integrity

Whatever requests run together, in whatever interleaving, and wherever they fail or are cut off, a record stored for
`g` is a record of `g`: it comes from one start of `g`, its branches were all supplied for `g`, and no branch id occurs
twice (`record_integrity`).

The invariant holds of the copies in flight because a handler only ever writes what it computed from its own read
(`Script.Safe`), and the operations keep it one by one.
-/

namespace Seata

open Async

/-- Some request supplied the branch `branchId` with this action for `g`. -/
def Supplied (rs : List (Request × World)) (g branchId action : String) : Prop :=
  ∃ r ∈ rs, r.1 = .addBranch g branchId action ∨ r.1 = .branchTry g branchId action

/-- One start request for `g` gave the record its mode, its payload and its time. -/
def StartedBy (r : Request × World) (g : String) (tx : GlobalTxn) : Prop :=
  ∃ gid mode payload, r.1 = .start gid mode payload ∧ g = (if gid.isEmpty then r.2.id else gid) ∧
    tx.mode = (if mode.isEmpty then "saga" else mode) ∧ tx.payload = payload ∧ tx.createdUnix = r.2.clock 0

/-- What is always true of a record stored for `g`. -/
structure Integrity (rs : List (Request × World)) (g : String) (tx : GlobalTxn) : Prop where
  gid : tx.gid = g
  distinct : (tx.branches.map BranchTxn.branchId).Nodup
  supplied : ∀ b ∈ tx.branches, Supplied rs g b.branchId b.action
  started : ∃ r ∈ rs, StartedBy r g tx

namespace Integrity

variable {rs : List (Request × World)} {g : String}

theorem branchIds_of_frame {a b : GlobalTxn} (h : a.frame = b.frame) :
    a.branches.map BranchTxn.branchId = b.branches.map BranchTxn.branchId := by
  have hl : (a.branches.map BranchTxn.label).map Prod.fst = (b.branches.map BranchTxn.label).map Prod.fst :=
    congrArg (List.map Prod.fst) (congrArg Frame.branches h)
  rw [List.map_map, List.map_map] at hl
  exact hl

theorem of_frame {a b : GlobalTxn} (h : a.frame = b.frame) (ha : Integrity rs g a) : Integrity rs g b where
  gid := (GlobalTxn.frame_gid h).symm.trans ha.gid
  distinct := branchIds_of_frame h ▸ ha.distinct
  supplied := by
    intro x hx
    have hm : x.label ∈ a.branches.map BranchTxn.label := by
      rw [show a.branches.map BranchTxn.label = b.branches.map BranchTxn.label from congrArg Frame.branches h]
      exact List.mem_map_of_mem hx
    obtain ⟨y, hy, hxy⟩ := List.mem_map.mp hm
    have hs := ha.supplied y hy
    rwa [show y.branchId = x.branchId from congrArg Prod.fst hxy,
      show y.action = x.action from congrArg Prod.snd hxy] at hs
  started := by
    obtain ⟨r, hr, gid, mode, payload, h₁, h₂, h₃, h₄, h₅⟩ := ha.started
    exact ⟨r, hr, gid, mode, payload, h₁, h₂, (congrArg Frame.mode h).symm.trans h₃,
      (congrArg Frame.payload h).symm.trans h₄,
      (congrArg Frame.createdUnix h).symm.trans h₅⟩

theorem new {gid mode : String} {payload : Bytes} {w : World} (h : (.start gid mode payload, w) ∈ rs)
    (hg : g = if gid.isEmpty then w.id else gid) :
    Integrity rs g (.new g (if mode.isEmpty then "saga" else mode) payload (w.clock 0)) where
  gid := rfl
  distinct := List.nodup_nil
  supplied := fun _ hb => absurd hb List.not_mem_nil
  started := ⟨_, h, gid, mode, payload, rfl, hg, rfl, rfl, rfl⟩

/-- The duplicate check of `addBranch` keeps the ids distinct. -/
theorem distinct_withBranch {tx : GlobalTxn} {branchId : String} (action : String) (now : Int)
    (h : (tx.branches.map BranchTxn.branchId).Nodup) (hnew : ∀ b ∈ tx.branches, b.branchId ≠ branchId) :
    ((tx.withBranch branchId action now).branches.map BranchTxn.branchId).Nodup := by
  rw [GlobalTxn.withBranch, List.map_append, List.nodup_append]
  refine ⟨h, List.nodup_singleton _, ?_⟩
  intro x hx y hy hxy
  obtain ⟨b, hb, rfl⟩ := List.mem_map.mp hx
  exact hnew b hb (hxy.trans (by simpa using hy))

theorem withBranch {tx : GlobalTxn} {branchId action : String} (now : Int) (h : Integrity rs g tx)
    (hs : Supplied rs g branchId action) (hnew : ∀ b ∈ tx.branches, b.branchId ≠ branchId) :
    Integrity rs g (tx.withBranch branchId action now) where
  gid := h.gid
  distinct := distinct_withBranch action now h.distinct hnew
  supplied := by
    intro b hb
    rcases List.mem_append.mp hb with hb | hb
    · exact h.supplied b hb
    · rw [List.mem_singleton.mp hb]
      exact hs
  started := h.started

end Integrity

/-- The invariant of the store: records within their integrity, wherever there is one. -/
def integral (rs : List (Request × World)) (o : Option GlobalTxn) : Prop := ∀ tx, o = some tx → Integrity rs tx.gid tx

theorem integral_ofFrame (rs : List (Request × World)) : OfFrame (integral rs) := by
  intro a b h ha tx htx
  cases htx
  exact GlobalTxn.frame_gid h ▸ (ha a rfl).of_frame h

variable [SerdeJson]

/-- Each handler keeps the records within their integrity. -/
theorem safe_handler (exec : ExecConfig) {rs : List (Request × World)} {r : Request × World} (hr : r ∈ rs) :
    (script (r.1.handler exec) (.init r.2)).Safe (Keeps Set.univ (integral rs) anyMark) fun _ => True := by
  obtain ⟨r, w⟩ := r
  apply safe_of_frame (integral_ofFrame rs) exec
  · exact fun _ _ => trivial
  · rintro gid mode payload rfl tx ⟨⟩
    exact Integrity.new hr rfl
  · rintro gid branchId action h tx now rfl hI hnew tx' ⟨⟩
    exact (hI tx rfl).withBranch now ⟨_, hr, h⟩ hnew

/-- **Record integrity**: every record ever stored under the key of `g`. -/
theorem record_integrity (exec : ExecConfig) (rs : List (Request × World))
    {tr : Log} {s : Handlers Response}
    (h : Run (serving exec ∅ rs) tr s) {t : Turn} {g : String} {v : Bytes} (hv : (t, .put (txnKey g) v) ∈ tr) :
    ∃ tx, v = toVec tx ∧ Integrity rs g tx := by
  have hsafe : ∀ x ∈ (serving exec ∅ rs).todos, x.Safe (Keeps Set.univ (integral rs) anyMark) fun _ => True := by
    intro x hx
    rw [serving_todos] at hx
    obtain ⟨r, hr, rfl⟩ := List.mem_map.mp hx
    exact safe_handler exec hr
  have hempty : ∀ k, Keeps Set.univ (integral rs) anyMark k ((∅ : Kv).lookup k) := by
    intro k
    exact ⟨fun g _ _ => ⟨none, by simp, by simp, fun tx htx => by cases htx⟩, fun _ _ _ _ => trivial⟩
  obtain ⟨-, -, hput⟩ := h.interleaving.safe hempty hsafe
  obtain ⟨o, ho, hgid, hI⟩ := (hput t _ v hv).1 g (Set.mem_univ _) rfl
  cases o with
  | none => cases ho
  | some tx => exact ⟨tx, Option.some.inj ho, hgid tx rfl ▸ hI tx rfl⟩

omit [SerdeJson] in
/-- A start and, racing with it, a new branch. -/
theorem record_integrity_race :
    let rs : List (Request × World) := [(.start "g" "" [1], .calm 7), (.addBranch "g" "b" "http://b", .calm 8)]
    ∃ tx, Json.toVec ⟨"g", "saga", .submitted, [1], [⟨"b", "http://b", .prepared⟩], 8, 7⟩ = Json.toVec tx ∧
      Integrity rs "g" tx := by
  intro rs
  obtain ⟨tr, s, h, hq⟩ := run_of_exec (s := @serving Json.serdeJson .default ∅ rs)
    [.main 0, .main 0, .main 1, .main 1, .main 1]
    (fun x => List.elem (.main 1, .put (txnKey "g")
      (Json.toVec ⟨"g", "saga", .submitted, [1], [⟨"b", "http://b", .prepared⟩], 8, 7⟩)) x.1) (by decide +kernel)
  exact @record_integrity Json.serdeJson .default rs tr s h (.main 1) _ _ (List.mem_of_elem_eq_true hq)

end Seata
