import Seata.Marks
import Seata.Async.TestAndSet

/-!
# The barrier

`insert` looks for a mark and puts it by two separate calls of the store, and the key of a mark is its three names
joined by a separator that the names may contain.

- Of concurrent inserts of one mark exactly one wins if and only if nobody else looks before the mark is put
  (`one_insert_wins_iff`).
- Called one after the other, `insert` and `exists` are those of a set of triples if and only if no insert is followed
  by a call with another triple of the same key (`barrier_is_set_iff`); `key_eq_iff` says which these are.
-/

namespace Seata

open Async

/-! ## Concurrent inserts -/

section Insert

variable {g b : String} {p : BarrierPhase}

theorem script_insert (c : Core BranchCall Error) : script (Barrier.insert g b p) c =
    .tryRead c (asBytes (Barrier.key g b p)) fun v c =>
      if v.isSome then .done (.ok false, c)
      else .tryWrite c (asBytes (Barrier.key g b p)) [] fun c => .done (.ok true, c) := by
  simp only [Barrier.insert, script_bind, script_get, Script.tryRead_andThen, Script.done_ok_andThen]
  congr
  funext v c
  cases h : v.isSome <;> simp

/-- When its calls work, an insert is a contest for the mark. -/
theorem script_insert_reliable {c : Core BranchCall Error} (hc : c.env.Reliable) : script (Barrier.insert g b p) c =
    .testAndSet (asBytes (Barrier.key g b p)) [] (.ok false, c.io) (.ok true, c.io.io) := by
  have hc' : c.io.env.Reliable := hc
  rw [script_insert, Script.tryRead_reliable hc, Script.tryWrite_reliable hc']
  rfl

/-- Concurrent inserts of one mark. -/
def inserting (st : Kv) (g b : String) (p : BarrierPhase) (ws : List World) : Handlers Bool :=
  .init st (ws.map fun w => ((Barrier.insert g b p).run, w))

/-- The insert has returned `true`. -/
def inserted (r : Except Error Bool × Core BranchCall Error) : Bool :=
  match r.1 with
  | .ok a => a
  | .error _ => false

/-- The handler `i` has returned `true`, and all others `false`. -/
def OnlyWinner (s : Handlers Bool) (i : Nat) : Prop :=
  i < s.procs.length ∧ ∀ (j : Nat) (q : Proc Bytes Bytes BranchCall Error (Except Error Bool)), s.procs[j]? = some q →
    q.prog = .ret (.ok (decide (j = i)))

/-- One handler has won if exactly one has returned `true`. -/
theorem onlyWinner_iff {s : Handlers Bool} (hok : s.AllOk) :
    (∃ i, OnlyWinner s i) ↔ s.todos.countP (ahead inserted) = 1 := by
  have hret {j : Nat} {q : Proc Bytes Bytes BranchCall Error (Except Error Bool)} (hq : s.procs[j]? = some q) :
      ∃ a, q.prog = .ret (.ok a) ∧ ahead inserted q.todo = a := by
    obtain ⟨a, ha⟩ := hok q (List.mem_of_getElem? hq)
    exact ⟨a, ha, by rw [Proc.todo, ha, resolve]; rfl⟩
  rw [countP_eq_one_iff]
  constructor
  · rintro ⟨i, hi, hall⟩
    have hq : s.procs[i]? = some s.procs[i] := List.getElem?_eq_getElem hi
    refine ⟨i, s.procs[i].todo, by rw [Pool.todos, List.getElem?_map, hq, Option.map_some], ?_, fun j x hj hx => ?_⟩
    · obtain ⟨a, ha, hahead⟩ := hret hq
      rw [hall i _ hq] at ha
      cases ha
      simpa using hahead
    · rw [Pool.todos, List.getElem?_map, Option.map_eq_some_iff] at hj
      obtain ⟨q, hq, rfl⟩ := hj
      obtain ⟨a, ha, hahead⟩ := hret hq
      rw [hall j q hq] at ha
      cases ha
      rw [hahead] at hx
      exact of_decide_eq_true hx
  · rintro ⟨i, x, hi, hx, honly⟩
    rw [Pool.todos, List.getElem?_map, Option.map_eq_some_iff] at hi
    obtain ⟨q₀, hq₀, rfl⟩ := hi
    refine ⟨i, (List.getElem?_eq_some_iff.mp hq₀).1, fun j q hq => ?_⟩
    obtain ⟨a, ha, hahead⟩ := hret hq
    have hj : s.todos[j]? = some q.todo := by rw [Pool.todos, List.getElem?_map, hq, Option.map_some]
    have hiff : a = true ↔ j = i := by
      constructor
      · exact fun h => honly j _ hj (hahead.trans h)
      · rintro rfl
        obtain rfl := Option.some.inj (hq₀.symm.trans hq)
        exact hahead.symm.trans hx
    rw [ha]
    simp only [← hiff, Bool.decide_eq_true]

/-- **Exactly one concurrent insert wins** if and only if nobody else looks before the mark is put. -/
theorem one_insert_wins_iff {st : Kv} (hst : st.lookup (asBytes (Barrier.key g b p)) = none) {ws : List World}
    (hne : ws ≠ []) (hws : ∀ w ∈ ws, w.Reliable) {tr : Log} {s : Handlers Bool} (h : Run (inserting st g b p ws) tr s)
    (hok : s.AllOk) :
    (∃ i, OnlyWinner s i) ↔ Orderly (asBytes (Barrier.key g b p)) tr := by
  have htodos : (inserting st g b p ws).todos = ws.map fun w => script (Barrier.insert g b p) (.init w) := by
    simp only [inserting, Pool.init, Pool.todos, List.map_map]
    rfl
  have hi := h.interleaving
  rw [htodos] at hi
  have hlen : s.todos ≠ [] := by
    intro hnil
    have hl := hi.length
    rw [hnil, List.length_map] at hl
    exact hne (List.length_eq_zero_iff.mp hl.symm)
  rw [onlyWinner_iff hok]
  apply hi.one_winner (v := []) hst ?_ (fun x hx => (todos_allOk hok x hx).imp fun _ hb => hb.1) hlen
  intro x hx
  obtain ⟨w, hw, rfl⟩ := List.mem_map.mp hx
  have hc : (Core.init w : Core BranchCall Error).env.Reliable := hws w hw
  exact ⟨_, _, rfl, rfl, script_insert_reliable hc⟩

end Insert

section Example

/-- Two inserts that both look before either puts the mark. -/
theorem two_inserts_win :
    ¬ ∀ (st : Kv) (g b : String) (p : BarrierPhase) (ws : List World) (tr : Log) (s : Handlers Bool),
    st.lookup (asBytes (Barrier.key g b p)) = none → ws ≠ [] → (∀ w ∈ ws, w.Reliable) →
      Run (inserting st g b p ws) tr s → s.AllOk → ∃ i, OnlyWinner s i := by
  intro hall
  obtain ⟨tr, s, h, hq⟩ := run_of_exec (s := inserting ∅ "g" "b" .confirm [.calm 1, .calm 1])
    [.main 0, .main 1, .main 0, .main 1]
    (fun x => decide (x.2.AllOk ∧ x.2.todos.countP (ahead inserted) = 2)) (by decide +kernel)
  obtain ⟨hok, htwo⟩ := of_decide_eq_true hq
  have hone := (onlyWinner_iff hok).mp (hall ∅ "g" "b" .confirm _ tr s (by simp) (by simp)
    (by simp [Env.Reliable, Env.calm]) h hok)
  rw [htwo] at hone
  cases hone

/-- An insert after another one. -/
theorem one_insert_wins_later :
    ∃ tr s, Run (inserting ∅ "g" "b" .confirm [.calm 1, .calm 1]) tr s ∧ ∃ i, OnlyWinner s i := by
  obtain ⟨tr, s, h, hq⟩ := run_of_exec (s := inserting ∅ "g" "b" .confirm [.calm 1, .calm 1])
    [.main 1, .main 1, .main 0]
    (fun x => decide (x.2.AllOk ∧ Orderly (asBytes (Barrier.key "g" "b" .confirm)) x.1)) (by decide +kernel)
  obtain ⟨hok, ho⟩ := of_decide_eq_true hq
  exact ⟨tr, s, h, (one_insert_wins_iff (by simp) (by simp) (by simp [Env.Reliable, Env.calm]) h hok).mpr ho⟩

end Example

/-! ## The keys of marks -/

theorem append_cons_cancel_right {α : Type} {a : α} {x x' z z' : List α} (hz : a ∉ z) (hz' : a ∉ z')
    (h : x ++ a :: z = x' ++ a :: z') : x = x' ∧ z = z' := by
  have hr := congrArg List.reverse h
  simp only [List.reverse_append, List.reverse_cons, List.append_assoc, List.cons_append, List.nil_append] at hr
  obtain ⟨h₁, h₂⟩ := append_cons_cancel (by simpa using hz) (by simpa using hz') hr
  exact ⟨List.reverse_injective h₂, List.reverse_injective h₁⟩

/-- **Two marks share a key** exactly when they are of one phase and their names are the same once joined. -/
theorem key_eq_iff {g b g' b' : String} {p p' : BarrierPhase} :
    Barrier.key g b p = Barrier.key g' b' p' ↔ g ++ ":" ++ b = g' ++ ":" ++ b' ∧ p = p' := by
  have hsplit (g b : String) (p : BarrierPhase) : (Barrier.key g b p).toList =
      "barrier:".toList ++ ((g ++ ":" ++ b).toList ++ ':' :: (Barrier.phaseName p).toList) := by
    simp [Barrier.key]
  have hphase (p : BarrierPhase) : ':' ∉ (Barrier.phaseName p).toList := List.count_eq_zero.mp (count_phase p)
  constructor
  · intro h
    have hl := congrArg String.toList h
    rw [hsplit, hsplit] at hl
    obtain ⟨h₁, h₂⟩ := append_cons_cancel_right (hphase p) (hphase p') (List.append_cancel_left hl)
    refine ⟨String.toList_injective h₁, ?_⟩
    cases p <;> cases p' <;> first | rfl | exact absurd h₂ (by decide)
  · rintro ⟨h, rfl⟩
    apply String.toList_injective
    rw [hsplit, hsplit, h]

/-- Gids without the separator can be read off a key. -/
theorem key_injective_of_gids {g b g' b' : String} {p p' : BarrierPhase} (hg : Plain g) (hg' : Plain g')
    (h : Barrier.key g b p = Barrier.key g' b' p') : g = g' ∧ b = b' ∧ p = p' := by
  obtain ⟨hjoin, hp⟩ := key_eq_iff.mp h
  have hl := congrArg String.toList hjoin
  simp only [String.toList_append, List.append_assoc] at hl
  obtain ⟨h₁, h₂⟩ := append_cons_cancel hg hg' hl
  exact ⟨String.toList_injective h₁, String.toList_injective h₂, hp⟩

/-! ## The barrier as a set -/

/-- The three names of a mark. -/
@[ext]
structure Mark where
  gid : String
  branchId : String
  phase : BarrierPhase
  deriving DecidableEq, Repr

def Mark.key (m : Mark) : Bytes := asBytes (Barrier.key m.gid m.branchId m.phase)

/-- A call of the barrier: an `insert`, or a look with `exists`. -/
inductive BarrierCall where
  | insert (m : Mark)
  | query (m : Mark)
  deriving DecidableEq, Repr

namespace BarrierCall

def mark : BarrierCall → Mark
  | .insert m => m
  | .query m => m

def program : BarrierCall → Server Bool
  | .insert m => Barrier.insert m.gid m.branchId m.phase
  | .query m => Barrier.exists m.gid m.branchId m.phase

/-- The call on a set of triples: what it answers, and the set after it. -/
def onSet : BarrierCall → Finset Mark → Bool × Finset Mark
  | .insert m, s => (decide (m ∉ s), Insert.insert m s)
  | .query m, s => (decide (m ∈ s), s)

end BarrierCall

/-- What calls of a set of triples answer. -/
def setAnswers : Finset Mark → List BarrierCall → List Bool
  | _, [] => []
  | s, c :: cs => (c.onSet s).1 :: setAnswers (c.onSet s).2 cs

/-- What complete calls of the barrier answer, one after the other. -/
def barrierAnswers : Kv → List (BarrierCall × World) → List (Except Error Bool)
  | _, [] => []
  | st, c :: cs => (complete c.1.program c.2 st).1 :: barrierAnswers (complete c.1.program c.2 st).2 cs

/-- No insert is followed by a call with another triple of the same key. -/
def Separate (cs : List BarrierCall) : Prop :=
  cs.Pairwise fun c c' => c = .insert c.mark → c.mark.key = c'.mark.key → c.mark = c'.mark

/-- The store has the keys of the marks in the set. -/
def Represents (st : Kv) (s : Finset Mark) : Prop := ∀ m : Mark, (st.lookup m.key).isSome ↔ ∃ m' ∈ s, m'.key = m.key

/-- The triples of the set can be told by their keys. -/
def Distinct (s : Finset Mark) : Prop := ∀ m ∈ s, ∀ m' ∈ s, m.key = m'.key → m = m'

section Calls

variable {st : Kv} {s : Finset Mark} {w : World} {m : Mark}

theorem complete_exists (hw : w.Reliable) (st : Kv) :
    complete (Barrier.exists m.gid m.branchId m.phase) w st = (.ok (st.lookup m.key).isSome, st) := by
  have hc : (Core.init w : Core BranchCall Error).env.Reliable := hw
  simp only [complete, Barrier.exists, script_bind, script_get, Script.tryRead_andThen, Script.done_ok_andThen,
    script_pure, Script.exec_tryRead hc, Script.exec_done]
  rfl

theorem complete_insert (hw : w.Reliable) (st : Kv) :
    complete (Barrier.insert m.gid m.branchId m.phase) w st =
      if (st.lookup m.key).isSome then (.ok false, st) else (.ok true, st.insert m.key []) := by
  have hc : (Core.init w : Core BranchCall Error).env.Reliable := hw
  rw [complete, script_insert_reliable hc, Script.testAndSet, Script.exec_read, ← Mark.key]
  cases (st.lookup m.key).isSome <;> rfl

/-- What a complete call answers. -/
def BarrierCall.answer (st : Kv) : BarrierCall → Bool
  | .insert m => !(st.lookup m.key).isSome
  | .query m => (st.lookup m.key).isSome

theorem complete_answer (hw : w.Reliable) (st : Kv) (c : BarrierCall) :
    (complete c.program w st).1 = .ok (c.answer st) := by
  cases c with
  | insert m =>
    rw [BarrierCall.program, complete_insert hw, BarrierCall.answer]
    cases (st.lookup m.key).isSome <;> rfl
  | query m => rw [BarrierCall.program, complete_exists hw, BarrierCall.answer]

/-- A call leaves the store with the marks of the set after it. -/
theorem Represents.complete (h : Represents st s) (hw : w.Reliable) (c : BarrierCall) :
    Represents (complete c.program w st).2 (c.onSet s).2 := by
  cases c with
  | query m => rwa [BarrierCall.program, complete_exists hw]
  | insert m =>
    intro m'
    rw [BarrierCall.program, complete_insert hw]
    simp only [BarrierCall.onSet, Finset.mem_insert, exists_eq_or_imp]
    by_cases hm : (st.lookup m.key).isSome = true
    · rw [if_pos hm, h m']
      refine ⟨.inr, fun hor => hor.elim (fun hk => ?_) id⟩
      rw [← hk]
      exact (h m).mp hm
    · rw [if_neg hm]
      by_cases hk : m.key = m'.key
      · rw [← hk, Finmap.lookup_insert]
        simp
      · rw [Finmap.lookup_insert_of_ne _ (Ne.symm hk), h m']
        simp [hk]

/-- The marks of the set that share the key of the call are its own. -/
def Apart (s : Finset Mark) (c : BarrierCall) : Prop := ∀ m ∈ s, m.key = c.mark.key → m = c.mark

theorem mem_onSet {c : BarrierCall} : m ∈ (c.onSet s).2 ↔ c = .insert m ∨ m ∈ s := by
  cases c with
  | insert m' => simp [BarrierCall.onSet, eq_comm]
  | query m' => simp [BarrierCall.onSet]

/-- A call answers like the set exactly when its triple is told apart from those in it. -/
theorem answer_iff (h : Represents st s) (hs : Distinct s) (c : BarrierCall) :
    c.answer st = (c.onSet s).1 ↔ Apart s c := by
  have hmem : ((st.lookup c.mark.key).isSome = true ↔ c.mark ∈ s) ↔ Apart s c := by
    rw [h c.mark]
    constructor
    · intro hiff m hm hk
      exact hs m hm c.mark (hiff.mp ⟨m, hm, hk⟩) hk
    · refine fun ha => ⟨?_, fun hm => ⟨c.mark, hm, rfl⟩⟩
      rintro ⟨m, hm, hk⟩
      exact ha m hm hk ▸ hm
  rw [← hmem, Bool.eq_iff_iff]
  cases c with
  | insert m =>
    simp only [BarrierCall.answer, BarrierCall.onSet, BarrierCall.mark, Bool.not_eq_true', decide_eq_true_iff,
      ← Bool.not_eq_true]
    exact not_iff_not
  | query m => simp only [BarrierCall.answer, BarrierCall.onSet, BarrierCall.mark, decide_eq_true_iff]

theorem Distinct.onSet (hs : Distinct s) {c : BarrierCall} (h : Apart s c) : Distinct (c.onSet s).2 := by
  intro m h₁ m' h₂ hk
  rcases mem_onSet.mp h₁ with rfl | hm <;> rcases mem_onSet.mp h₂ with hc | hm'
  · exact BarrierCall.insert.inj hc
  · exact (h m' hm' hk.symm).symm
  · subst hc
    exact h m hm hk
  · exact hs m hm m' hm' hk

end Calls

/-- Calls on a represented set answer like the set exactly when their keys tell their triples apart. The induction is on
the calls; `s` is what the earlier ones have inserted. -/
theorem answers_iff : ∀ (cs : List (BarrierCall × World)) {st : Kv} {s : Finset Mark}, Represents st s → Distinct s →
    (∀ c ∈ cs, c.2.Reliable) → (barrierAnswers st cs = (setAnswers s (cs.map Prod.fst)).map .ok ↔
      (∀ c ∈ cs, Apart s c.1) ∧ Separate (cs.map Prod.fst))
  | [], _, _, _, _, _ => by simp [barrierAnswers, setAnswers, Separate]
  | (c, w) :: cs, st, s, hst, hs, hw => by
    have hw₀ : w.Reliable := hw (c, w) List.mem_cons_self
    have hfirst := answer_iff hst hs c
    rw [barrierAnswers, List.map_cons, setAnswers, List.map_cons, List.cons.injEq, complete_answer hw₀,
      Except.ok.injEq, hfirst, List.forall_mem_cons, and_assoc]
    refine and_congr_right fun ha => ?_
    rw [answers_iff cs (hst.complete hw₀ c) (hs.onSet ha) fun c hc => hw c (List.mem_cons_of_mem _ hc)]
    simp only [Separate, List.pairwise_cons, List.mem_map, forall_exists_index, and_imp,
      forall_apply_eq_imp_iff₂, ← and_assoc]
    refine and_congr_left fun _ => ?_
    simp only [Apart, mem_onSet]
    constructor
    · refine fun h => ⟨fun c' hc' m hm => h c' hc' m (.inr hm), fun c' hc' hins hk => ?_⟩
      exact h c' hc' c.mark (.inl hins) hk
    · rintro ⟨h₁, h₂⟩ c' hc' m (rfl | hm) hk
      · exact h₂ c' hc' rfl hk
      · exact h₁ c' hc' m hm hk

/-- **The barrier is a set of triples** if and only if no insert is followed by a call with another triple of the same
key. -/
theorem barrier_is_set_iff {st : Kv} (hst : ∀ m : Mark, st.lookup m.key = none) {cs : List (BarrierCall × World)}
    (hw : ∀ c ∈ cs, c.2.Reliable) :
    barrierAnswers st cs = (setAnswers ∅ (cs.map Prod.fst)).map .ok ↔ Separate (cs.map Prod.fst) := by
  rw [answers_iff cs (fun m => by simp [hst m]) (fun m hm => absurd hm (Finset.notMem_empty m)) hw]
  simp [Apart]

/-- Gids without the separator keep the marks apart. -/
theorem separate_of_gids {cs : List BarrierCall} (h : ∀ c ∈ cs, Plain c.mark.gid) : Separate cs := by
  apply List.pairwise_of_forall_mem_list
  intro c hc c' hc' _ hk
  obtain ⟨hg, hb, hp⟩ := key_injective_of_gids (h c hc) (h c' hc') (asBytes_injective hk)
  exact Mark.ext hg hb hp

section Example

/-- A mark that answers for another transaction. -/
theorem barrier_collision : ¬ ∀ (st : Kv) (cs : List (BarrierCall × World)), (∀ m : Mark, st.lookup m.key = none) →
    (∀ c ∈ cs, c.2.Reliable) → barrierAnswers st cs = (setAnswers ∅ (cs.map Prod.fst)).map .ok := by
  intro h
  have hanswers := h ∅ [(.insert ⟨"a:b", "c", .confirm⟩, .calm 1), (.insert ⟨"a", "b:c", .confirm⟩, .calm 1)] (by simp)
    (by simp [Env.Reliable, Env.calm])
  revert hanswers
  decide +kernel

/-- Marks of two phases and of two transactions. -/
theorem barrier_is_set_plain :
    barrierAnswers ∅ [(.insert ⟨"g", "b:c", .confirm⟩, .calm 1), (.insert ⟨"g", "b:c", .cancel⟩, .calm 1),
      (.query ⟨"h", "b:c", .confirm⟩, .calm 1), (.insert ⟨"g", "b:c", .confirm⟩, .calm 1)] =
    (setAnswers ∅ [.insert ⟨"g", "b:c", .confirm⟩, .insert ⟨"g", "b:c", .cancel⟩, .query ⟨"h", "b:c", .confirm⟩,
      .insert ⟨"g", "b:c", .confirm⟩]).map .ok :=
  (barrier_is_set_iff (by simp) (by simp [Env.Reliable, Env.calm])).mpr
    (separate_of_gids (by simp [BarrierCall.mark, Plain]))

end Example

end Seata
