import Seata.Upkeep
import Seata.Json

/-!
# Complete requests, one after the other

`serve` is a request that runs to its end with nobody else; `serveAll` a sequence of them. What matters of the store
is the record of each transaction (`record`) and which marks are there.

- `serve_of_run`: a run of one handler that has returned is a `serve`;
- `Sound`: every transaction key holds an encoded record of its gid — kept by every request, also by one that fails;
- `Request.effect`: what a request does to its record, and `serve_record`: **a complete request does just that to the
  record of its transaction, and nothing to the others**.
-/

namespace Seata

open Async

section Requests

/-- The transaction that a request is about; a start without a gid makes one up. -/
def Request.gid (w : World) : Request → String
  | .start gid _ _ => if gid.isEmpty then w.id else gid
  | .submit gid => gid
  | .abort gid => gid
  | .addBranch gid _ _ => gid
  | .branchTry gid _ _ => gid
  | .branchSucceed gid _ => gid
  | .branchFail gid _ => gid

/-- The key of the mark that a branch handler puts. -/
def Request.mark : Request → Option Bytes
  | .branchTry gid branchId _ => some (asBytes (Barrier.key gid branchId .tryPhase))
  | .branchSucceed gid branchId => some (asBytes (Barrier.key gid branchId .confirm))
  | .branchFail gid branchId => some (asBytes (Barrier.key gid branchId .cancel))
  | _ => none

/-- The mark of the request is in the store. -/
def Request.marked (st : Kv) (r : Request) : Bool := r.mark.any fun k => (st.lookup k).isSome

/-- What a request does to the record of its transaction. -/
def Request.effect (w : World) : Request → Option GlobalTxn → Option GlobalTxn
  | .start gid mode payload, _ =>
    some (.new (if gid.isEmpty then w.id else gid) (if mode.isEmpty then "saga" else mode) payload (w.clock 0))
  | .submit _, tx => tx.map fun tx => tx.submitted w
  | .abort _, tx => tx.map fun tx => tx.aborted (w.clock 0)
  | .addBranch _ branchId action, tx => tx.map fun tx => tx.added branchId action (w.clock 0)
  | .branchTry _ branchId action, tx => tx.map fun tx => tx.added branchId action (w.clock 0)
  | .branchSucceed _ branchId, tx => tx.map fun tx => tx.reported .succeed branchId (w.clock 0)
  | .branchFail _ branchId, tx => tx.map fun tx => tx.reported .failed branchId (w.clock 0)

end Requests

section Serve

variable [SerdeJson]

/-- The record of a transaction. -/
def record (st : Kv) (g : String) : Option GlobalTxn := (st.lookup (txnKey g)).bind fun v => (fromSlice v).toOption

theorem Stored.record {st : Kv} {tx : GlobalTxn} {g : String} (h : Stored st tx) (hg : tx.gid = g) :
    record st g = some tx := by
  subst hg
  have h : st.lookup (txnKey tx.gid) = some (toVec tx) := h
  simp [Seata.record, h, Except.toOption]

/-- Every transaction key holds an encoded record of its gid. -/
def Sound (st : Kv) : Prop := ∀ k, Keeps Set.univ (fun _ => True) anyMark k (st.lookup k)

theorem sound_empty : Sound ∅ := fun _ => ⟨fun _ _ _ => ⟨none, by simp, by simp, trivial⟩, fun _ _ _ _ => trivial⟩

theorem Sound.lookup {st : Kv} (h : Sound st) (g : String) : st.lookup (txnKey g) = (record st g).map toVec := by
  obtain ⟨o, ho, -, -⟩ := (h (txnKey g)).1 g (Set.mem_univ g) rfl
  rw [record, ho]
  cases o <;> simp [Except.toOption]

theorem Sound.gid {st : Kv} (h : Sound st) {g : String} {tx : GlobalTxn} (htx : record st g = some tx) :
    tx.gid = g := by
  obtain ⟨o, ho, hgid, -⟩ := (h (txnKey g)).1 g (Set.mem_univ g) rfl
  apply hgid tx
  rw [record, ho] at htx
  cases o <;> simp_all [Except.toOption]

/-- The invariant says what the records are. -/
theorem keeps_record {I : Option GlobalTxn → Prop} {M : Bytes → Option Bytes → Prop} {st : Kv}
    (h : ∀ k, Keeps Set.univ I M k (st.lookup k)) (g : String) : I (record st g) := by
  obtain ⟨o, ho, -, hI⟩ := (h (txnKey g)).1 g (Set.mem_univ g) rfl
  have hr : record st g = o := by
    rw [record, ho]
    cases o <;> simp [Except.toOption]
  rwa [hr]

theorem Sound.keeps {I : Option GlobalTxn → Prop} {st : Kv} (h : Sound st) (hI : ∀ g, I (record st g)) (k : Bytes) :
    Keeps Set.univ I anyMark k (st.lookup k) := by
  refine ⟨?_, fun _ _ _ _ => trivial⟩
  rintro g - rfl
  exact ⟨record st g, h.lookup g, fun tx htx => h.gid htx, hI g⟩

theorem record_insert (st : Kv) (tx : GlobalTxn) (gid g : String) :
    record (st.insert (txnKey gid) (toVec tx)) g = if g = gid then some tx else record st g := by
  unfold record
  by_cases h : g = gid
  · rw [if_pos h, h, Finmap.lookup_insert]
    simp [Except.toOption]
  · have hk : txnKey g ≠ txnKey gid := fun hk => h (txnKey_injective hk)
    rw [if_neg h, Finmap.lookup_insert_of_ne _ hk]

theorem record_insert_mark (st : Kv) (g b : String) (p : BarrierPhase) (v : Bytes) (g' : String) :
    record (st.insert (asBytes (Barrier.key g b p)) v) g' = record st g' := by
  unfold record
  rw [Finmap.lookup_insert_of_ne _ (mark_ne_txnKey g b p g').symm]

/-! ## A complete request -/

/-- An operation that runs to its end with nobody else: its result and the store it leaves. -/
def complete {α : Type} (x : Server α) (w : World) (st : Kv) : Except Error α × Kv :=
  let y := (script x (.init w)).exec st
  (y.2.1.1, y.2.2)

/-- One complete request: its result and the store it leaves. -/
def serve (exec : ExecConfig) (st : Kv) (r : Request × World) : Except Error Response × Kv :=
  let x := (script (r.1.handler exec) (.init r.2)).exec st
  (x.2.1.1, x.2.2)

/-- Complete requests, one after the other. -/
def serveAll (exec : ExecConfig) (st : Kv) (rs : List (Request × World)) : Kv :=
  rs.foldl (fun st r => (serve exec st r).2) st

@[simp] theorem serveAll_nil (exec : ExecConfig) (st : Kv) : serveAll exec st [] = st := rfl

theorem serveAll_append (exec : ExecConfig) (st : Kv) (rs rs' : List (Request × World)) :
    serveAll exec st (rs ++ rs') = serveAll exec (serveAll exec st rs) rs' := List.foldl_append

/-- **A run of one handler that has returned** is a complete request. -/
theorem serve_of_run {exec : ExecConfig} {st : Kv} {r : Request × World} {tr : Log} {s : Handlers Response}
    (h : Run (serving exec st [r]) tr s) {a : Except Error Response} (ha : ∀ p ∈ s.procs, p.prog = .ret a) :
    serve exec st r = (a, s.store) := by
  obtain ⟨q, hq, hx⟩ := run_alone h
  have hx : (script (r.1.handler exec) (.init r.2)).exec st = _ := hx
  have hd : q.todo = .done (a, q.loc.core) := by
    rw [Proc.todo, ha q (by rw [hq]; exact List.mem_singleton_self q), resolve]
  rw [serve, hx, hd]
  rfl

/-- **A handler keeps an invariant of the frame** that a new record and a new branch have. -/
theorem safe_of_frame {I : Option GlobalTxn → Prop} (hof : OfFrame I) (exec : ExecConfig) (r : Request × World)
    {M : Bytes → Option Bytes → Prop} (hM : ∀ k, r.1.mark = some k → M k (some []))
    (hnew : ∀ gid mode payload, r.1 = .start gid mode payload → I (some (.new (if gid.isEmpty then r.2.id else gid)
      (if mode.isEmpty then "saga" else mode) payload (r.2.clock 0))))
    (hadd : ∀ gid branchId action, r.1 = .addBranch gid branchId action ∨ r.1 = .branchTry gid branchId action →
      ∀ tx now, tx.gid = gid → I (some tx) → (∀ b ∈ tx.branches, b.branchId ≠ branchId) →
        I (some (tx.withBranch branchId action now))) :
    (script (r.1.handler exec) (.init r.2)).Safe (Keeps Set.univ I M) fun _ => True := by
  obtain ⟨r, w⟩ := r
  cases r <;> refine upholds_returning ?_
  case start => exact upholds_start (hnew _ _ _ rfl)
  case submit => exact safe_submit hof exec (Set.mem_univ _)
  case abort => exact safe_abort hof (Set.mem_univ _)
  case addBranch => exact upholds_addBranch (Set.mem_univ _) (hadd _ _ _ (.inl rfl))
  case branchTry =>
    exact upholds_guarded (hM _ rfl) fun _ _ => upholds_addBranch (Set.mem_univ _) (hadd _ _ _ (.inr rfl))
  case branchSucceed => exact upholds_guarded (hM _ rfl) fun _ _ => safe_setBranch hof _ _ (Set.mem_univ _)
  case branchFail => exact upholds_guarded (hM _ rfl) fun _ _ => safe_setBranch hof _ _ (Set.mem_univ _)

/-- A handler saves encoded records of the gids they are stored under, and puts no mark but its own. -/
theorem safe_request (exec : ExecConfig) (r : Request × World) {M : Bytes → Option Bytes → Prop}
    (hM : ∀ k, r.1.mark = some k → M k (some [])) :
    (script (r.1.handler exec) (.init r.2)).Safe (Keeps Set.univ (fun _ => True) M) fun _ => True :=
  safe_of_frame (fun _ _ _ _ => trivial) exec r hM (fun _ _ _ _ => trivial) fun _ _ _ _ _ _ _ _ _ => trivial

/-- Every handler, with any faults, keeps the store sound. -/
theorem serve_sound (exec : ExecConfig) {st : Kv} (h : Sound st) (r : Request × World) : Sound (serve exec st r).2 :=
  ((safe_request exec r fun _ _ => trivial).exec h).1

/-- What a handler keeps holds of the records that it leaves. -/
theorem serve_keeps {exec : ExecConfig} {r : Request × World} {I : Option GlobalTxn → Prop}
    (hr : (script (r.1.handler exec) (.init r.2)).Safe (Keeps Set.univ I anyMark) fun _ => True) {st : Kv}
    (h : Sound st) (hI : ∀ g, I (record st g)) (g : String) : I (record (serve exec st r).2 g) :=
  keeps_record (hr.exec (h.keeps hI)).1 g

/-- **The marks after a request**, with any faults: the marks before it, and perhaps its own. -/
theorem serve_marks (exec : ExecConfig) {st : Kv} (h : Sound st) (r : Request × World) (g b : String)
    (p : BarrierPhase) :
    (serve exec st r).2.lookup (asBytes (Barrier.key g b p)) = st.lookup (asBytes (Barrier.key g b p)) ∨
      r.1.mark = some (asBytes (Barrier.key g b p)) := by
  have hsafe := safe_request exec r (M := fun k v => v = st.lookup k ∨ r.1.mark = some k) fun k hk => .inr hk
  have hst : ∀ k, Keeps Set.univ (fun _ => True) (fun k v => v = st.lookup k ∨ r.1.mark = some k) k (st.lookup k) :=
    fun k => ⟨(h k).1, fun _ _ _ _ => .inl rfl⟩
  exact ((hsafe.exec hst).1 _).2 g b p rfl

theorem serveAll_sound (exec : ExecConfig) :
    ∀ (rs : List (Request × World)) {st : Kv}, Sound st → Sound (serveAll exec st rs)
  | [], _, h => h
  | r :: rs, _, h => serveAll_sound exec rs (serve_sound exec h r)

theorem serveAll_take_succ (exec : ExecConfig) (st : Kv) {rs : List (Request × World)} {i : Nat} (hi : i < rs.length) :
    serveAll exec st (rs.take (i + 1)) = (serve exec (serveAll exec st (rs.take i)) rs[i]).2 := by
  rw [List.take_succ_eq_append_getElem hi, serveAll, List.foldl_append]
  rfl

/-- **The run rule**: a property that a request breaks exactly when it is bad holds along a run exactly when no request
of it is bad in its turn. -/
theorem serveAll_iff (exec : ExecConfig) {P : Kv → Prop} {Bad : Kv → Request × World → Prop}
    (hstep : ∀ st r, Sound st → r.2.Reliable → P st → (P (serve exec st r).2 ↔ ¬ Bad st r)) {st : Kv} (hst : Sound st)
    (h₀ : P st) {rs : List (Request × World)} (hrs : ∀ r ∈ rs, r.2.Reliable) :
    (∀ n, P (serveAll exec st (rs.take n))) ↔ ∀ i (hi : i < rs.length), ¬ Bad (serveAll exec st (rs.take i)) rs[i] := by
  have hsound (i : Nat) : Sound (serveAll exec st (rs.take i)) := serveAll_sound exec _ hst
  constructor
  · intro h i hi
    have hn := h (i + 1)
    rw [serveAll_take_succ exec st hi] at hn
    exact (hstep _ _ (hsound i) (hrs _ (List.getElem_mem hi)) (h i)).mp hn
  · intro h n
    induction n with
    | zero => exact h₀
    | succ i ih =>
      by_cases hi : i < rs.length
      · rw [serveAll_take_succ exec st hi]
        exact (hstep _ _ (hsound i) (hrs _ (List.getElem_mem hi)) ih).mpr (h i hi)
      · rw [List.take_of_length_le (by omega)] at ih ⊢
        exact ih

/-! ## The effect of a request -/

/-- The script changes the record of `gid` by `f`. -/
def Updates (st : Kv) (gid : String) (f : GlobalTxn → GlobalTxn) (x : Action Unit) : Prop :=
  ∀ g, record (x.exec st).2.2 g = if g = gid then (record st g).map f else record st g

section Updates

variable {st : Kv} {gid : String} {c : Core BranchCall Error}

/-- The store with the record of `gid` changed by `f`, if there is one. -/
def changed (f : GlobalTxn → GlobalTxn) (st : Kv) (gid : String) : Kv :=
  match record st gid with
  | none => st
  | some tx => st.insert (txnKey gid) (toVec (f tx))

theorem record_changed (f : GlobalTxn → GlobalTxn) (st : Kv) (gid g : String) :
    record (changed f st gid) g = if g = gid then (record st g).map f else record st g := by
  unfold changed
  cases hr : record st gid with
  | none =>
    dsimp only
    split
    · subst g
      rw [hr, Option.map_none]
    · rfl
  | some tx =>
    dsimp only
    rw [record_insert]
    split
    · subst g
      rw [hr, Option.map_some]
    · rfl

/-- Run alone, the script succeeds and leaves the store `st'`. -/
def Leaves (st st' : Kv) (x : Action Unit) : Prop := (x.exec st).2.1.1 = .ok () ∧ (x.exec st).2.2 = st'

/-- An operation that loads its record and saves it changed, with working storage calls. -/
theorem changes_onRecord (hc : c.env.Reliable) (h : Sound st) {f : GlobalTxn → GlobalTxn}
    {k : GlobalTxn → Core BranchCall Error → Action Unit}
    (hk : ∀ tx, record st gid = some tx → tx.gid = gid →
      Leaves st (st.insert (txnKey gid) (toVec (f tx))) (k tx c.io)) :
    Leaves st (changed f st gid) (.tryRead c (txnKey gid) fun v c => onRecord v c k) := by
  rw [Leaves, Script.exec_tryRead hc, h.lookup gid, changed]
  cases hr : record st gid with
  | none => exact ⟨rfl, rfl⟩
  | some tx =>
    rw [Option.map_some, onRecord_toVec]
    exact hk tx hr (h.gid hr)

theorem changes_saveLast (hc : c.env.Reliable) (tx : GlobalTxn) (hgid : tx.gid = gid) :
    Leaves st (st.insert (txnKey gid) (toVec tx)) (saveLast tx c) := by
  have hc' : c.tick.env.Reliable := hc
  subst hgid
  simp only [Leaves, saveLast, Script.exec_tryWrite hc', Script.exec_done]
  exact ⟨trivial, trivial⟩

/-- An operation that leaves its record as it is. -/
theorem changes_nothing (h : Sound st) {tx : GlobalTxn} (htx : record st gid = some tx) :
    Leaves st (st.insert (txnKey gid) (toVec tx)) (.done (.ok (), c)) := by
  have hself : st.insert (txnKey gid) (toVec tx) = st := Script.insert_self (by rw [h.lookup, htx, Option.map_some])
  exact ⟨rfl, hself.symm⟩

theorem changes_submit (hc : c.env.Reliable) (h : Sound st) (ht : c.ticks = 0) (exec : ExecConfig) :
    Leaves st (changed (fun tx => tx.submitted c.env) st gid) (script (submit exec gid) c) := by
  rw [script_submit]
  apply changes_onRecord hc h
  intro tx _ hgid
  have hf : ∀ n, c.env.fault n = none := hc
  subst hgid
  simp only [Leaves, submitRest, saveLast, Script.tryWrite, Core.tick, Core.io, spawned, hf, Script.exec_write,
    Script.exec_spawnAll, Script.exec_done, GlobalTxn.submitted, ht]
  exact ⟨trivial, (congrArg _ (Finmap.insert_insert _)).trans (Finmap.insert_insert _)⟩

theorem changes_abort (hc : c.env.Reliable) (h : Sound st) :
    Leaves st (changed (fun tx => tx.aborted (c.env.clock c.ticks)) st gid) (script (abort gid) c) := by
  rw [script_abort]
  apply changes_onRecord hc h
  intro tx _ hgid
  have hc' : c.io.env.Reliable := hc
  exact changes_saveLast hc' (tx.aborted (c.env.clock c.ticks)) hgid

theorem changes_addBranch (hc : c.env.Reliable) (h : Sound st) (branchId action : String) :
    Leaves st (changed (fun tx => tx.added branchId action (c.env.clock c.ticks)) st gid)
      (script (addBranch gid branchId action) c) := by
  rw [script_addBranch]
  apply changes_onRecord hc h
  intro tx htx hgid
  have hc' : c.io.env.Reliable := hc
  unfold GlobalTxn.added
  split
  · exact changes_nothing h htx
  · exact changes_saveLast hc' (tx.withBranch _ _ _) hgid

theorem changes_setBranch (hc : c.env.Reliable) (h : Sound st) (status : BranchStatus) (branchId : String) :
    Leaves st (changed (fun tx => tx.reported status branchId (c.env.clock c.ticks)) st gid)
      (script (setBranch status gid branchId) c) := by
  rw [script_setBranch]
  apply changes_onRecord hc h
  intro tx htx hgid
  have hc' : c.io.env.Reliable := hc
  unfold GlobalTxn.reported
  cases tx.report status branchId with
  | none => exact changes_nothing h htx
  | some bs => exact changes_saveLast hc' (tx.withBranches bs _) hgid

theorem updates_of_changed {f : GlobalTxn → GlobalTxn} {x : Action Unit} (h : Leaves st (changed f st gid) x) :
    Updates st gid f x := by
  intro g
  rw [h.2, record_changed]

theorem sound_insert_mark (h : Sound st) (g b : String) (p : BarrierPhase) (v : Bytes) :
    Sound (st.insert (asBytes (Barrier.key g b p)) v) := Script.lookup_insert_of h (keeps_mark trivial)

/-- The barrier: with its mark in the store the request does nothing. -/
theorem updates_guarded (hc : c.env.Reliable) (h : Sound st) {phase : BarrierPhase} {branchId : String}
    {operation : Server Unit} {f : GlobalTxn → GlobalTxn}
    (hop : ∀ c' : Core BranchCall Error, c'.env = c.env → c'.ticks = c.ticks → ∀ st', Sound st' →
      Updates st' gid f (script operation c')) :
    Updates st gid (if (st.lookup (asBytes (Barrier.key gid branchId phase))).isSome then id else f)
      (script (guarded phase gid branchId operation) c) := by
  intro g
  have hc' : c.io.env.Reliable := hc
  rw [script_guarded, Script.exec_tryRead hc]
  split
  · rw [Script.exec_done, Option.map_id]
    split <;> rfl
  · rw [Script.exec_tryWrite hc']
    have hu := hop c.io.io rfl rfl _ (sound_insert_mark h gid branchId phase []) g
    rw [record_insert_mark] at hu
    exact hu

end Updates

omit [SerdeJson] in
/-- A handler that returns a constant has the effect of its operation. -/
theorem exec_handler {operation : Server Unit} {c : Core BranchCall Error} {st : Kv} (a : Response) :
    ((script (operation >>= fun _ => pure a) c).exec st).2.2 = ((script operation c).exec st).2.2 := by
  rw [script_bind, Script.andThen, Script.exec_bind]
  dsimp only
  split <;> rfl

omit [SerdeJson] in
theorem marked_none {st : Kv} {r : Request} (h : r.mark = none) : r.marked st = false := by
  rw [Request.marked, h]
  rfl

omit [SerdeJson] in
/-- A handler whose barrier fails, or finds its mark, does nothing. -/
theorem guarded_stops {st : Kv} {w : World} {g b : String} {phase : BarrierPhase} {operation : Server Unit}
    (h : (st.lookup (asBytes (Barrier.key g b phase))).isSome ∨ w.fault 0 ≠ none ∨ w.fault 1 ≠ none) :
    ((script (guarded phase g b operation) (.init w)).exec st).2.2 = st := by
  rw [script_guarded]
  unfold Script.tryRead Script.tryWrite
  cases h₀ : w.fault 0 with
  | some e => simp [Core.init, h₀]
  | none =>
    cases hm : (st.lookup (asBytes (Barrier.key g b phase))).isSome with
    | true => simp [Core.init, h₀, hm]
    | false =>
      cases h₁ : w.fault 1 with
      | some e => simp [Core.init, Core.io, h₀, hm, h₁]
      | none => simp [h₀, hm, h₁] at h

omit [SerdeJson] in
/-- What a handler behind the barrier puts: nothing, or its mark and what the operation puts. -/
theorem mem_puts_guarded {st : Kv} {g b : String} {p : BarrierPhase} {operation : Server Unit} {w : World}
    {q : Bytes × Bytes} :
    q ∈ puts ((script (guarded p g b operation) (.init w)).exec st).1 ↔
      (st.lookup (asBytes (Barrier.key g b p))).isSome = false ∧ w.fault 0 = none ∧ w.fault 1 = none ∧
        (q = (asBytes (Barrier.key g b p), []) ∨
          q ∈ puts ((script operation (Core.io (Core.io (.init w)))).exec
            (st.insert (asBytes (Barrier.key g b p)) [])).1) := by
  have h₀ : (Core.init w : Core BranchCall Error).env.fault (Core.init w : Core BranchCall Error).ios = w.fault 0 := rfl
  have h₁ : (Core.init w : Core BranchCall Error).io.env.fault (Core.init w : Core BranchCall Error).io.ios =
      w.fault 1 := rfl
  rw [script_guarded, mem_puts_tryRead, h₀]
  cases (st.lookup (asBytes (Barrier.key g b p))).isSome with
  | true => simp
  | false => simp [mem_puts_tryWrite, h₁]

/-- **A complete request** does its effect to the record of its transaction, unless its mark is there, and nothing to
the other records. -/
theorem serve_record (exec : ExecConfig) {st : Kv} (h : Sound st) (r : Request) {w : World} (hw : w.Reliable)
    (g : String) :
    record (serve exec st (r, w)).2 g =
      if g = r.gid w ∧ r.marked st = false then r.effect w (record st g) else record st g := by
  have hc : (Core.init w : Core BranchCall Error).env.Reliable := hw
  -- an operation without a mark, and one behind its mark
  have hplain {gid : String} {operation : Server Unit} {f : GlobalTxn → GlobalTxn} (hm : r.marked st = false)
      (hu : Updates st gid f (script operation (.init w))) :
      record ((script (operation >>= fun _ => pure none : Server Response) (.init w)).exec st).2.2 g =
        if g = gid ∧ r.marked st = false then (record st g).map f else record st g := by
    rw [exec_handler, hu g]
    simp [hm]
  have hguarded {gid branchId : String} {phase : BarrierPhase} {operation : Server Unit} {f : GlobalTxn → GlobalTxn}
      (hm : r.marked st = (st.lookup (asBytes (Barrier.key gid branchId phase))).isSome)
      (hu : ∀ c' : Core BranchCall Error, c'.env = w → c'.ticks = 0 → ∀ st', Sound st' →
        Updates st' gid f (script operation c')) :
      record ((script (guarded phase gid branchId operation >>= fun _ => pure none : Server Response)
        (.init w)).exec st).2.2 g =
        if g = gid ∧ r.marked st = false then (record st g).map f else record st g := by
    rw [exec_handler, updates_guarded hc h hu g, ← hm]
    cases r.marked st <;> simp
  cases r with
  | start gid mode payload =>
    have hs : (serve exec st (.start gid mode payload, w)).2 =
      st.insert (txnKey (Request.gid w (.start gid mode payload)))
        (toVec (.new (Request.gid w (.start gid mode payload)) (if mode.isEmpty then "saga" else mode) payload
          (w.clock 0))) := by
      have hc' : (Core.init w : Core BranchCall Error).tick.env.Reliable := hw
      simp only [serve, Request.handler, script_bind, script_start, Script.tryWrite_andThen, Script.exec_tryWrite hc']
      rfl
    rw [hs, record_insert, marked_none rfl]
    simp [Request.effect, Request.gid]
  | submit gid => exact hplain (marked_none rfl) (updates_of_changed (changes_submit hc h rfl exec))
  | abort gid => exact hplain (marked_none rfl) (updates_of_changed (changes_abort hc h))
  | addBranch gid branchId action =>
    exact hplain (marked_none rfl) (updates_of_changed (changes_addBranch hc h branchId action))
  | branchTry gid branchId action =>
    apply hguarded rfl
    intro c' he ht st' h'
    have hu : Updates st' gid _ (script (Seata.addBranch gid branchId action) c') :=
      updates_of_changed (changes_addBranch (he ▸ hw) h' branchId action)
    rwa [he, ht] at hu
  | branchSucceed gid branchId =>
    apply hguarded rfl
    intro c' he ht st' h'
    have hu : Updates st' gid _ (script (setBranch .succeed gid branchId) c') :=
      updates_of_changed (changes_setBranch (he ▸ hw) h' .succeed branchId)
    rwa [he, ht] at hu
  | branchFail gid branchId =>
    apply hguarded rfl
    intro c' he ht st' h'
    have hu : Updates st' gid _ (script (setBranch .failed gid branchId) c') :=
      updates_of_changed (changes_setBranch (he ▸ hw) h' .failed branchId)
    rwa [he, ht] at hu

end Serve

end Seata
