import Mathlib.Data.List.Basic
import Mathlib.Data.List.Nodup

/-!
# Pages of a list

A page of a list is a window of it (`window`).

- `flatMap_window`: **consecutive windows tile the list**;
- `filter_window_eq_iff`: when filtering a page is a page of the filtered list.
-/

namespace Async

variable {α : Type}

/-- The elements of a list after the first `offset`, and at most `limit` of them. -/
def window (l : List α) (offset limit : Nat) : List α := (l.drop offset).take limit

theorem drop_take_window (l : List α) (offset limit : Nat) :
    (l.take (offset + limit)).drop offset = window l offset limit := by
  rw [List.drop_take, Nat.add_sub_cancel_left]
  rfl

theorem length_window_le (l : List α) (offset limit : Nat) : (window l offset limit).length ≤ limit :=
  List.length_take_le _ _

theorem window_zero (l : List α) (offset : Nat) : window l offset 0 = [] := List.take_zero

theorem window_of_length_le {l : List α} {offset : Nat} (h : l.length ≤ offset) (limit : Nat) :
    window l offset limit = [] := by
  rw [window, List.drop_eq_nil_of_le h, List.take_nil]

/-- A list in three parts: before a window, the window, and after it. -/
theorem take_window_drop (l : List α) (offset limit : Nat) :
    l.take offset ++ (window l offset limit ++ l.drop (offset + limit)) = l := by
  rw [window, ← List.drop_drop, List.take_append_drop, List.take_append_drop]

theorem window_append_window (l : List α) (offset limit limit' : Nat) :
    window l offset limit ++ window l (offset + limit) limit' = window l offset (limit + limit') := by
  rw [window, window, window, List.take_add, List.drop_drop]

/-- Consecutive windows of the same size, from the first element on. -/
theorem flatMap_window_take (l : List α) (n : Nat) :
    ∀ k : Nat, (List.range k).flatMap (fun i => window l (i * n) n) = l.take (k * n)
  | 0 => by simp
  | k + 1 => by
    have hlast : l.take (k * n) = window l 0 (k * n) := rfl
    have hnext := window_append_window l 0 (k * n) n
    rw [Nat.zero_add] at hnext
    rw [List.range_succ, List.flatMap_append, flatMap_window_take l n k, List.flatMap_singleton, hlast, hnext,
      Nat.add_mul, Nat.one_mul]
    rfl

/-- **Windows tile a list** once there are enough of them. -/
theorem flatMap_window {l : List α} {n k : Nat} (h : l.length ≤ k * n) :
    (List.range k).flatMap (fun i => window l (i * n) n) = l := by
  rw [flatMap_window_take, List.take_of_length_le h]

/-! ## Chunks -/

/-- The list in chunks of the given size, the last one perhaps shorter; the fuel is the length of the list. -/
def chunksFrom (size : Nat) : (fuel : Nat) → List α → List (List α)
  | 0, _ => []
  | _ + 1, [] => []
  | fuel + 1, a :: l => (a :: l).take size :: chunksFrom size fuel ((a :: l).drop size)

def chunks (size : Nat) (l : List α) : List (List α) := chunksFrom size l.length l

theorem ne_nil_of_mem_chunksFrom {size : Nat} (hs : 0 < size) {c : List α} :
    ∀ {fuel : Nat} {l : List α}, c ∈ chunksFrom size fuel l → c ≠ []
  | 0, _, h => by cases h
  | _ + 1, [], h => by cases h
  | fuel + 1, a :: l, h => by
    rcases List.mem_cons.mp h with rfl | h
    · obtain ⟨n, rfl⟩ := Nat.exists_eq_succ_of_ne_zero (Nat.ne_of_gt hs)
      exact List.cons_ne_nil _ _
    · exact ne_nil_of_mem_chunksFrom hs h

/-- No chunk is empty. -/
theorem ne_nil_of_mem_chunks {size : Nat} (hs : 0 < size) {l c : List α} (h : c ∈ chunks size l) : c ≠ [] :=
  ne_nil_of_mem_chunksFrom hs h

/-! ## Filtering a page -/

section Filter

variable {l : List α} {p : α → Bool} {offset limit : Nat}

theorem length_filter_take_le (l : List α) (p : α → Bool) (offset : Nat) : ((l.take offset).filter p).length ≤ offset :=
  Nat.le_trans (List.length_filter_le _ _) (List.length_take_le _ _)

/-- The window of the filtered list begins in what is left after the first `offset` elements. -/
theorem window_filter (l : List α) (p : α → Bool) (offset limit : Nat) : window (l.filter p) offset limit =
    (((window l offset limit).filter p ++ (l.drop (offset + limit)).filter p).drop
      (offset - ((l.take offset).filter p).length)).take limit := by
  have hle := length_filter_take_le l p offset
  conv_lhs => rw [← take_window_drop l offset limit, List.filter_append, List.filter_append, window]
  rw [List.drop_append, List.drop_eq_nil_of_le hle, List.nil_append]

/-- A short window is the last one. -/
theorem drop_of_length_window_lt (h : (window l offset limit).length < limit) : l.drop (offset + limit) = [] := by
  rw [window, List.length_take, List.length_drop] at h
  rw [List.drop_eq_nil_iff]
  omega

/-- When the filter keeps all that is before the window, it commutes with the window if it keeps the window too, or
nothing after it. -/
theorem filter_window_of_take (hb : ∀ a ∈ l.take offset, p a = true)
    (h : (∀ a ∈ window l offset limit, p a = true) ∨ ∀ a ∈ l.drop (offset + limit), p a = false) :
    (window l offset limit).filter p = window (l.filter p) offset limit := by
  rw [window_filter, List.filter_eq_self.mpr hb]
  rcases Nat.lt_or_ge l.length offset with hlen | hlen
  · -- there is no window
    have hw : window l offset limit = [] := window_of_length_le (Nat.le_of_lt hlen) limit
    have hr : l.drop (offset + limit) = [] := List.drop_eq_nil_of_le (by omega)
    rw [hw, hr]
    simp
  · rw [List.length_take_of_le hlen, Nat.sub_self, List.drop_zero]
    rcases h with hw | hr
    · rw [List.filter_eq_self.mpr hw]
      rcases Nat.lt_or_ge (window l offset limit).length limit with hshort | hfull
      · rw [drop_of_length_window_lt hshort, List.filter_nil, List.append_nil]
        exact (List.take_of_length_le (Nat.le_of_lt hshort)).symm
      · rw [List.take_append_of_le_length hfull, List.take_of_length_le (length_window_le l offset limit)]
    · have hnone : (l.drop (offset + limit)).filter p = [] := List.filter_eq_nil_iff.mpr fun a ha => by simp [hr a ha]
      rw [hnone, List.append_nil]
      exact (List.take_of_length_le (Nat.le_trans (List.length_filter_le _ _) (length_window_le l offset limit))).symm

/-- A page with an element that matches begins where the page of the filtered list does only if nothing before it is
filtered out. -/
theorem take_of_filter_window (hl : l.Nodup) {x : α} {xs : List α} (hx : (window l offset limit).filter p = x :: xs)
    (h : (window l offset limit).filter p = window (l.filter p) offset limit) :
    ((l.take offset).filter p).length = offset := by
  by_contra hne
  have hle := length_filter_take_le l p offset
  obtain ⟨d, hd⟩ : ∃ d, offset - ((l.take offset).filter p).length = d + 1 :=
    ⟨_, (Nat.succ_pred_eq_of_pos (by omega)).symm⟩
  rw [window_filter, hd, hx, List.cons_append, List.drop_succ_cons] at h
  -- the head of the page would be there twice
  have hmem : x ∈ xs ++ (l.drop (offset + limit)).filter p :=
    List.mem_of_mem_drop (List.mem_of_mem_take (h ▸ List.mem_cons_self))
  have hnodup : (x :: (xs ++ (l.drop (offset + limit)).filter p)).Nodup := by
    rw [← List.cons_append, ← hx, ← List.filter_append]
    refine List.Nodup.filter p ?_
    rw [← take_window_drop l offset limit] at hl
    exact hl.of_append_right
  exact (List.nodup_cons.mp hnodup).1 hmem

/-- **Filtering a page is a page of the filtered list** exactly when the page is of no element; or nothing before it is
filtered out, and nothing of it is or nothing after it matches; or nothing of it matches, and the page of the filtered
list is empty. -/
theorem filter_window_eq_iff (hl : l.Nodup) (p : α → Bool) (offset limit : Nat) :
    (window l offset limit).filter p = window (l.filter p) offset limit ↔
    limit = 0 ∨
      (∀ a ∈ l.take offset, p a = true) ∧
        ((∀ a ∈ window l offset limit, p a = true) ∨ ∀ a ∈ l.drop (offset + limit), p a = false) ∨
      (∀ a ∈ window l offset limit, p a = false) ∧ (l.filter p).length ≤ offset := by
  constructor
  · intro h
    rcases Nat.eq_zero_or_pos limit with h0 | hpos
    · exact .inl h0
    right
    cases hx : (window l offset limit).filter p with
    | nil =>
      right
      refine ⟨fun a ha => by simpa using List.filter_eq_nil_iff.mp hx a ha, ?_⟩
      rw [hx, window, eq_comm, List.take_eq_nil_iff, List.drop_eq_nil_iff] at h
      exact h.resolve_left (by omega)
    | cons x xs =>
      left
      have hb := take_of_filter_window hl hx h
      have hall : ∀ a ∈ l.take offset, p a = true := by
        rw [← List.length_filter_eq_length_iff]
        have := List.length_take_le offset l
        have := List.length_filter_le p (l.take offset)
        omega
      refine ⟨hall, ?_⟩
      rw [window_filter, hb, Nat.sub_self, List.drop_zero] at h
      have hlen := congrArg List.length h
      rw [List.length_take, List.length_append] at hlen
      cases hr : (l.drop (offset + limit)).filter p with
      | nil => exact .inr fun a ha => by simpa using List.filter_eq_nil_iff.mp hr a ha
      | cons y ys =>
        -- the page is full
        rw [hr, List.length_cons] at hlen
        have hle := length_window_le l offset limit
        have hfl := List.length_filter_le p (window l offset limit)
        exact .inl (List.length_filter_eq_length_iff.mp (by omega))
  · rintro (rfl | ⟨hb, h⟩ | ⟨hw, hle⟩)
    · rw [window_zero, window_zero, List.filter_nil]
    · exact filter_window_of_take hb h
    · rw [List.filter_eq_nil_iff.mpr fun a ha => by simp [hw a ha], window_of_length_le hle]

/-- Filtering the first elements gives as many as filtering them all, up to their number, exactly when nothing of them
is filtered out or nothing after them matches. -/
theorem length_filter_take_iff (l : List α) (p : α → Bool) (limit : Nat) :
    ((l.take limit).filter p).length = min limit (l.countP p) ↔
      (∀ a ∈ l.take limit, p a = true) ∨ ∀ a ∈ l.drop limit, p a = false := by
  have hsplit : l.countP p = ((l.take limit).filter p).length + ((l.drop limit).filter p).length := by
    rw [← List.countP_eq_length_filter, ← List.countP_eq_length_filter, ← List.countP_append, List.take_append_drop]
  have hle := List.length_filter_le p (l.take limit)
  have htake := List.length_take_le limit l
  constructor
  · intro h
    cases hr : (l.drop limit).filter p with
    | nil => exact .inr fun a ha => by simpa using List.filter_eq_nil_iff.mp hr a ha
    | cons x xs =>
      rw [hsplit, hr, List.length_cons] at h
      exact .inl (List.length_filter_eq_length_iff.mp (by omega))
  · rintro (hall | hnone)
    · rw [hsplit, List.filter_eq_self.mpr hall]
      rcases Nat.lt_or_ge l.length limit with hlt | hge
      · rw [List.drop_eq_nil_of_le (Nat.le_of_lt hlt), List.filter_nil, List.length_nil]
        omega
      · rw [List.length_take_of_le hge]
        omega
    · have hr : (l.drop limit).filter p = [] := List.filter_eq_nil_iff.mpr fun a ha => by simp [hnone a ha]
      rw [hsplit, hr, List.length_nil]
      omega

end Filter

end Async
