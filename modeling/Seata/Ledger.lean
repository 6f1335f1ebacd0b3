import Seata.Sequential
import Mathlib.Data.Finset.Basic

/-!
# The ledger

What the server is for, without keys and encodings: a record for each transaction, and the marks that the branch
handlers have left. A request whose mark is there changes nothing; any other one leaves its mark and has its effect on
the record of its transaction.

- `serve_isSome`, `serve_marked`, `serve_marks_own`: what becomes of the marks in the store;
- `serve_answer`: **a complete request never fails** when its storage calls work;
- `serveAll_refines`: **the server refines the ledger** — after any complete requests it has the records and the marks
  of the ledger after the same requests.
-/

namespace Seata

open Async

/-! ## Marks -/

section Marks

variable [SerdeJson] {st : Kv} {r : Request × World} {k : Bytes}

/-- A mark stays in the store, with any faults. -/
theorem serve_isSome (exec : ExecConfig) (r : Request × World) (h : (st.lookup k).isSome) :
    ((serve exec st r).2.lookup k).isSome := by
  rw [serve, Script.exec_written]
  exact isSome_written h

theorem serveAll_isSome (exec : ExecConfig) : ∀ (rs : List (Request × World)) {st : Kv}, (st.lookup k).isSome →
    ((serveAll exec st rs).lookup k).isSome
  | [], _, h => h
  | r :: rs, _, h => serveAll_isSome exec rs (serve_isSome exec r h)

omit [SerdeJson] in
/-- A handler whose barrier works leaves its mark. -/
theorem guarded_marks {phase : BarrierPhase} {g b : String} {operation : Server Unit} {w : World}
    (h₀ : w.fault 0 = none) (h₁ : w.fault 1 = none) :
    (((script (guarded phase g b operation) (.init w)).exec st).2.2.lookup
      (asBytes (Barrier.key g b phase))).isSome := by
  rw [Script.exec_written]
  cases hm : (st.lookup (asBytes (Barrier.key g b phase))).isSome with
  | true => exact isSome_written hm
  | false => exact isSome_of_mem_written (mem_puts_guarded.mpr ⟨hm, h₀, h₁, .inl rfl⟩)

/-- **A request that finds its mark** leaves the store alone. -/
theorem serve_marked (exec : ExecConfig) (hk : r.1.mark = some k) (h : (st.lookup k).isSome) :
    (serve exec st r).2 = st := by
  obtain ⟨r, w⟩ := r
  cases r with
  | branchTry | branchSucceed | branchFail =>
    obtain rfl := Option.some.inj hk
    exact (exec_handler none).trans (guarded_stops (.inl h))
  | _ => cases hk

/-- **A request leaves its mark** if its barrier works. -/
theorem serve_marks_own (exec : ExecConfig) (h₀ : r.2.fault 0 = none) (h₁ : r.2.fault 1 = none)
    (hk : r.1.mark = some k) :
    ((serve exec st r).2.lookup k).isSome := by
  obtain ⟨r, w⟩ := r
  have hexec {operation : Server Unit} (h : (((script operation (.init w)).exec st).2.2.lookup k).isSome) :
      (((script (operation >>= fun _ => pure (none : Response)) (.init w)).exec st).2.2.lookup k).isSome := by
    rwa [exec_handler]
  cases r with
  | branchTry | branchSucceed | branchFail =>
    obtain rfl := Option.some.inj hk
    exact hexec (guarded_marks h₀ h₁)
  | _ => cases hk

end Marks

/-! ## Answers -/

/-- What a request returns: a start the gid of its transaction, any other request nothing. -/
def Request.answer (w : World) : Request → Response
  | .start gid _ _ => some (if gid.isEmpty then w.id else gid)
  | _ => none

section Answers

variable {operation : Server Unit} {c : Core BranchCall Error} {st : Kv}

theorem exec_handler_ok {a : Response} (h : ((script operation c).exec st).2.1.1 = .ok ()) :
    ((script (operation >>= fun _ => pure a) c).exec st).2.1.1 = .ok a := by
  rw [script_bind, Script.andThen, Script.exec_bind]
  dsimp only
  rw [h]
  rfl

theorem exec_guarded_ok (hc : c.env.Reliable) {phase : BarrierPhase} {g b : String} [SerdeJson] (h : Sound st)
    (hop : ∀ c' : Core BranchCall Error, c'.env = c.env → ∀ st', Sound st' →
      ((script operation c').exec st').2.1.1 = .ok ()) :
    ((script (guarded phase g b operation) c).exec st).2.1.1 = .ok () := by
  have hc' : c.io.env.Reliable := hc
  rw [script_guarded, Script.exec_tryRead hc]
  split
  · rfl
  · rw [Script.exec_tryWrite hc']
    exact hop c.io.io rfl _ (sound_insert_mark h g b phase [])

/-- **A complete request succeeds** when its storage calls work. -/
theorem serve_answer [SerdeJson] (exec : ExecConfig) (h : Sound st) (r : Request) {w : World} (hw : w.Reliable) :
    (serve exec st (r, w)).1 = .ok (r.answer w) := by
  have hc : (Core.init w : Core BranchCall Error).env.Reliable := hw
  cases r with
  | start gid mode payload =>
    have hc' : (Core.init w : Core BranchCall Error).tick.env.Reliable := hw
    simp only [serve, Request.handler, script_bind, script_start, Script.tryWrite_andThen, Script.exec_tryWrite hc']
    rfl
  | submit gid => exact exec_handler_ok (changes_submit hc h rfl exec).1
  | abort gid => exact exec_handler_ok (changes_abort hc h).1
  | addBranch gid branchId action => exact exec_handler_ok (changes_addBranch hc h branchId action).1
  | branchTry gid branchId action =>
    exact exec_handler_ok (exec_guarded_ok hc h fun c' he _ h' => (changes_addBranch (he ▸ hw) h' branchId action).1)
  | branchSucceed gid branchId =>
    exact exec_handler_ok (exec_guarded_ok hc h fun c' he _ h' => (changes_setBranch (he ▸ hw) h' .succeed branchId).1)
  | branchFail gid branchId =>
    exact exec_handler_ok (exec_guarded_ok hc h fun c' he _ h' => (changes_setBranch (he ▸ hw) h' .failed branchId).1)

end Answers

/-! ## The ledger -/

/-- The records of the transactions, and the marks. -/
structure Ledger where
  records : String → Option GlobalTxn
  marks : Finset Bytes

namespace Ledger

def empty : Ledger := ⟨fun _ => none, ∅⟩

/-- The mark of the request is there. -/
def marked (l : Ledger) (r : Request) : Bool := r.mark.any fun k => decide (k ∈ l.marks)

/-- One request: nothing if its mark is there, and otherwise its mark and its effect. -/
def serve (l : Ledger) (r : Request × World) : Ledger :=
  if l.marked r.1 then l
  else
    { records := Function.update l.records (r.1.gid r.2) (r.1.effect r.2 (l.records (r.1.gid r.2)))
      marks := r.1.mark.toFinset ∪ l.marks }

def serveAll (l : Ledger) (rs : List (Request × World)) : Ledger := rs.foldl serve l

end Ledger

/-- The store has the records and the marks of the ledger. -/
structure Refines [SerdeJson] (st : Kv) (l : Ledger) : Prop where
  sound : Sound st
  records : ∀ g, record st g = l.records g
  marks : ∀ g b p, (st.lookup (asBytes (Barrier.key g b p))).isSome = true ↔ asBytes (Barrier.key g b p) ∈ l.marks

section Refinement

variable [SerdeJson] {st : Kv} {l : Ledger}

theorem refines_empty : Refines ∅ .empty := ⟨sound_empty, fun _ => rfl, fun _ _ _ => by simp [Ledger.empty]⟩

omit [SerdeJson] in
theorem mark_eq_key {r : Request} {k : Bytes} (hk : r.mark = some k) : ∃ g b p, k = asBytes (Barrier.key g b p) := by
  cases r <;> cases hk <;> exact ⟨_, _, _, rfl⟩

theorem Refines.marked (h : Refines st l) (r : Request) : r.marked st = l.marked r := by
  rw [Request.marked, Ledger.marked]
  cases hk : r.mark with
  | none => rfl
  | some k =>
    obtain ⟨g, b, p, rfl⟩ := mark_eq_key hk
    rw [Option.any_some, Option.any_some, Bool.eq_iff_iff, decide_eq_true_iff]
    exact h.marks g b p

/-- **One complete request** is one request to the ledger, and succeeds. -/
theorem serve_refines (exec : ExecConfig) (h : Refines st l) {r : Request × World} (hw : r.2.Reliable) :
    (serve exec st r).1 = .ok (r.1.answer r.2) ∧ Refines (serve exec st r).2 (l.serve r) := by
  have hmarked := h.marked r.1
  refine ⟨serve_answer exec h.sound r.1 hw, serve_sound exec h.sound r, fun g => ?_, fun g b p => ?_⟩
  · rw [serve_record exec h.sound r.1 hw, hmarked, Ledger.serve, h.records]
    cases l.marked r.1 with
    | true => simp
    | false =>
      simp only [and_true, Bool.false_eq_true, if_false, Function.update_apply]
      split
      · subst g
        rfl
      · rfl
  · rw [Ledger.serve]
    cases hm : l.marked r.1 with
    | true =>
      -- the request finds its mark
      rw [hm] at hmarked
      obtain ⟨k, hk, hs⟩ := (Option.any_eq_true _ _).mp hmarked
      rw [if_pos rfl, serve_marked exec hk hs]
      exact h.marks g b p
    | false =>
      simp only [Bool.false_eq_true, if_false, Finset.mem_union, Option.mem_toFinset, Option.mem_def]
      rw [← h.marks]
      constructor
      · intro hs
        rcases serve_marks exec h.sound r g b p with hl | hk
        · exact .inr (hl ▸ hs)
        · exact .inl hk
      · rintro (hk | hs)
        · exact serve_marks_own exec (hw 0) (hw 1) hk
        · exact serve_isSome exec r hs

/-- **The server refines the ledger.** -/
theorem serveAll_refines (exec : ExecConfig) : ∀ (rs : List (Request × World)) {st : Kv} {l : Ledger}, Refines st l →
    (∀ r ∈ rs, r.2.Reliable) → Refines (serveAll exec st rs) (l.serveAll rs)
  | [], _, _, h, _ => h
  | r :: rs, _, _, h, hw => serveAll_refines exec rs (serve_refines exec h (hw r List.mem_cons_self)).2 fun r' hr' =>
    hw r' (List.mem_cons_of_mem _ hr')

/-- The records of a run, by the ledger. -/
theorem record_ledger (exec : ExecConfig) {rs : List (Request × World)} (hw : ∀ r ∈ rs, r.2.Reliable) (g : String) :
    record (serveAll exec ∅ rs) g = (Ledger.empty.serveAll rs).records g :=
      (serveAll_refines exec rs refines_empty hw).records g

/-- The marks of a run, by the ledger. -/
theorem marked_ledger (exec : ExecConfig) {rs : List (Request × World)} (hw : ∀ r ∈ rs, r.2.Reliable) (r : Request) :
    r.marked (serveAll exec ∅ rs) = (Ledger.empty.serveAll rs).marked r :=
      (serveAll_refines exec rs refines_empty hw).marked r

end Refinement

end Seata
