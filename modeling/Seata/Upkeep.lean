import Seata.Scripts
import Seata.Async.Rules

/-!
# Invariants of the stored records

`Keeps G I M`: under the keys of the transactions in `G` there are encoded records within `I`, and under the keys of
marks there is what `M` allows. Which operation keeps such an invariant depends only on what it does to a record:

- `Upholds G I J M S`: relying on records within `I`, an operation saves records within `J` and spawns calls within
  `S`; there is one rule for each operation;
- an invariant of the frame (`OfFrame`) is kept by `submit`, `abort` and the two branch reports (`safe_submit`,
  `safe_abort`, `safe_setBranch`);
- `addBranch` has to keep it when it appends a new branch, `start` has to establish it;
- the barrier never writes under the key of a transaction, and the operations never under the key of a mark: only
  `upholds_guarded` asks something of `M`.
-/

namespace Seata

open Async

variable [SerdeJson]

/-! ## The scripts of a pool -/

theorem serving_todos (exec : ExecConfig) (st : Kv) (rs : List (Request × World)) :
    (serving exec st rs).todos = rs.map fun r => script (r.1.handler exec) (.init r.2) := by
  simp only [serving, Pool.init, Pool.todos, List.map_map]
  rfl

theorem managing_todos (exec : ExecConfig) (st : Kv) (rs : List (SagaRequest × World)) :
    (managing exec st rs).todos = rs.map fun r => script (r.1.handler exec) (.init r.2) := by
  simp only [managing, Pool.init, Pool.todos, List.map_map]
  rfl

/-! ## Invariants -/

/-- The keys of the transactions in `G` hold encoded records within `I`, where `none` stands for an absent record; the
keys of marks hold what `M` allows. -/
def Keeps (G : Set String) (I : Option GlobalTxn → Prop) (M : Bytes → Option Bytes → Prop) (k : Bytes)
    (v : Option Bytes) : Prop :=
  (∀ g ∈ G, k = txnKey g → ∃ o : Option GlobalTxn, v = o.map toVec ∧ (∀ tx ∈ o, tx.gid = g) ∧ I o) ∧
    ∀ g b p, k = asBytes (Barrier.key g b p) → M k v

/-- Nothing is known about the marks. -/
def anyMark : Bytes → Option Bytes → Prop := fun _ _ => True

/-- The invariant depends on the frame alone. -/
def OfFrame (I : Option GlobalTxn → Prop) : Prop := ∀ a b : GlobalTxn, a.frame = b.frame → I (some a) → I (some b)

section Rules

variable {G : Set String} {I : Option GlobalTxn → Prop} {M : Bytes → Option Bytes → Prop} {gid : String}
  {c : Core BranchCall Error}

theorem keeps_toVec {tx : GlobalTxn} {k : Bytes} (hk : k = txnKey tx.gid) (h : I (some tx)) :
    Keeps G I M k (some (toVec tx)) := by
  refine ⟨fun g _ hg => ?_, fun g b p hb => absurd (hb.symm.trans hk) (mark_ne_txnKey g b p tx.gid)⟩
  exact ⟨some tx, rfl, fun tx' htx => by cases htx; exact txnKey_injective (hk.symm.trans hg), h⟩

theorem keeps_mark {g b : String} {p : BarrierPhase} {v : Option Bytes} (h : M (asBytes (Barrier.key g b p)) v) :
    Keeps G I M (asBytes (Barrier.key g b p)) v :=
  ⟨fun g' _ hk => absurd hk (mark_ne_txnKey g b p g'), fun _ _ _ _ => h⟩

/-- A stored record within the invariant. -/
theorem keeps_stored {st : Kv} {tx : GlobalTxn} (hst : Stored st tx) (hgid : tx.gid = gid)
    (h : I (some tx)) (k : Bytes) :
    Keeps {gid} I anyMark k (st.lookup k) := by
  subst hgid
  refine ⟨?_, fun _ _ _ _ => trivial⟩
  rintro g rfl rfl
  exact ⟨some tx, hst, fun tx' htx => by cases htx; rfl, h⟩

/-- What an operation finds is absent, or an encoded record within the invariant. -/
theorem onRecord_of_keeps {N : Action Unit → Prop} {v : Option Bytes}
    {f : GlobalTxn → Core BranchCall Error → Action Unit} (hv : Keeps G I M (txnKey gid) v) (hg : gid ∈ G)
    (hnone : I none → N (.done (.ok (), c))) (hsome : ∀ tx, tx.gid = gid → I (some tx) → N (f tx c)) :
    N (onRecord v c f) := by
  obtain ⟨o, rfl, hgid, hI⟩ := hv.1 gid hg rfl
  cases o with
  | none => exact hnone hI
  | some tx =>
    rw [Option.map_some, onRecord_toVec]
    exact hsome tx (hgid tx rfl) hI

/-- Relying on records within `I`, the script saves records within `J` and spawns calls within `S`. -/
abbrev Upholds {α : Type} (G : Set String) (I J : Option GlobalTxn → Prop) (M : Bytes → Option Bytes → Prop)
    (S : BranchCall → Prop) (x : Action α) : Prop :=
  x.Guarantees (Keeps G I M) (fun k v => Keeps G J M k (some v)) S fun _ => True

section Upholds

variable {J : Option GlobalTxn → Prop} {S : BranchCall → Prop}

/-- A handler that returns something when its operation has returned. -/
theorem upholds_returning {α β : Type} {operation : Server α} {f : α → β} (h : Upholds G I J M S (script operation c)) :
    Upholds G I J M S (script (operation >>= fun a => pure (f a)) c) := by
  rw [script_bind]
  exact h.andThen (fun _ _ _ => trivial) fun _ _ _ => trivial

theorem upholds_saveLast {tx : GlobalTxn} (h : J (some tx)) : Upholds G I J M S (saveLast tx c) := by
  unfold saveLast
  exact .tryWrite (keeps_toVec rfl h) trivial fun _ => trivial

/-- An operation that reads the record of `gid` and goes on with it. -/
theorem upholds_onRecord {f : GlobalTxn → Core BranchCall Error → Action Unit} (hg : gid ∈ G)
    (hf : ∀ tx c, tx.gid = gid → I (some tx) → Upholds G I J M S (f tx c)) :
    Upholds G I J M S (Script.tryRead c (txnKey gid) fun v c => onRecord v c f) := by
  refine .tryRead (fun v hv => ?_) fun _ => trivial
  exact onRecord_of_keeps (N := Upholds G I J M S) hv hg (fun _ => trivial) fun tx => hf tx _

/-- A submit saves three records, and spawns the calls of the copy that it has loaded. -/
theorem upholds_submit (exec : ExecConfig) (hg : gid ∈ G)
    (hsave : ∀ tx n₁, tx.gid = gid → I (some tx) → J (some (tx.committing n₁)) ∧
      ∀ e n₂, J (some ((tx.committing n₁).decided e n₂)) ∧ ∀ n₃,
        J (some (((tx.committing n₁).decided e n₂).finalized n₃)))
    (hcall : ∀ tx, tx.gid = gid → I (some tx) → ∀ x ∈ tx.calls, S x) :
    Upholds G I J M S (script (submit exec gid) c) := by
  rw [script_submit]
  apply upholds_onRecord hg
  intro tx c hgid h
  unfold submitRest
  refine .tryWrite (keeps_toVec rfl (hsave tx _ hgid h).1) ?_ fun _ => trivial
  refine .spawnAll ?_ (hcall tx hgid h)
  refine .tryWrite (keeps_toVec rfl ((hsave tx _ hgid h).2 _ _).1) ?_ fun _ => trivial
  exact upholds_saveLast (((hsave tx _ hgid h).2 _ _).2 _)

theorem upholds_abort (hg : gid ∈ G) (hsave : ∀ tx now, tx.gid = gid → I (some tx) → J (some (tx.aborted now))) :
    Upholds G I J M S (script (abort gid) c) := by
  rw [script_abort]
  exact upholds_onRecord hg fun tx c hgid h => upholds_saveLast (hsave tx _ hgid h)

theorem upholds_setBranch (status : BranchStatus) (branchId : String) (hg : gid ∈ G)
    (hsave : ∀ tx bs now, tx.gid = gid → I (some tx) → tx.report status branchId = some bs →
      J (some (tx.withBranches bs now))) : Upholds G I J M S (script (setBranch status gid branchId) c) := by
  rw [script_setBranch]
  apply upholds_onRecord hg
  intro tx c hgid h
  split
  · trivial
  · rename_i bs hbs
    exact upholds_saveLast (hsave tx bs _ hgid h hbs)

theorem upholds_addBranch {branchId action : String} (hg : gid ∈ G)
    (hadd : ∀ tx now, tx.gid = gid → I (some tx) → (∀ b ∈ tx.branches, b.branchId ≠ branchId) →
      J (some (tx.withBranch branchId action now))) : Upholds G I J M S (script (addBranch gid branchId action) c) := by
  rw [script_addBranch]
  apply upholds_onRecord hg
  intro tx c hgid h
  split
  · trivial
  · rename_i hnew
    exact upholds_saveLast (hadd tx _ hgid h (GlobalTxn.not_hasBranch.mp hnew))

theorem upholds_start {mode : String} {payload : Bytes}
    (hnew : J (some (.new (if gid.isEmpty then c.env.id else gid) (if mode.isEmpty then "saga" else mode) payload
      (c.env.clock c.ticks)))) : Upholds G I J M S (script (start gid mode payload) c) := by
  rw [script_start]
  exact .tryWrite (keeps_toVec rfl hnew) trivial fun _ => trivial

theorem upholds_guarded {phase : BarrierPhase} {g branchId : String} {operation : Server Unit}
    (hM : M (asBytes (Barrier.key g branchId phase)) (some []))
    (h : ∀ c' : Core BranchCall Error, c'.env = c.env → Upholds G I J M S (script operation c')) :
    Upholds G I J M S (script (guarded phase g branchId operation) c) := by
  rw [script_guarded]
  refine .tryRead (fun v _ => ?_) fun _ => trivial
  split
  · trivial
  · exact .tryWrite (keeps_mark hM) (h _ rfl) fun _ => trivial

end Upholds

theorem safe_submit (hI : OfFrame I) (exec : ExecConfig) (hg : gid ∈ G) :
    (script (submit exec gid) c).Safe (Keeps G I M) fun _ => True := by
  refine upholds_submit exec hg (fun tx n₁ _ h => ?_) fun _ _ _ _ _ => trivial
  have h₁ : I (some (tx.committing n₁)) := hI tx _ (by simp) h
  have h₂ (e : World) (n₂ : Int) : I (some ((tx.committing n₁).decided e n₂)) := hI _ _ (by simp) h₁
  exact ⟨h₁, fun e n₂ => ⟨h₂ e n₂, fun n₃ => hI _ _ (GlobalTxn.finalized_frame _ _).symm (h₂ e n₂)⟩⟩

theorem safe_abort (hI : OfFrame I) (hg : gid ∈ G) : (script (abort gid) c).Safe (Keeps G I M) fun _ => True :=
  upholds_abort hg fun tx _ _ h => hI tx _ (by simp) h

theorem safe_setBranch (hI : OfFrame I) (status : BranchStatus) (branchId : String) (hg : gid ∈ G) :
    (script (setBranch status gid branchId) c).Safe (Keeps G I M) fun _ => True :=
  upholds_setBranch status branchId hg fun tx _ _ _ h hbs => hI tx _ (GlobalTxn.withBranches_frame hbs).symm h

end Rules

end Seata
