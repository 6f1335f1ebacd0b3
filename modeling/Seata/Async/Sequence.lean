import Seata.Async.Rules

/-!
# One script after the other

In an interleaving the scripts may take their steps one after the other: first one of them all of its steps, then the
next one. Nothing of another script is then between two steps of a script, and it does what it does alone.

- `InSequence`: these handlers take their steps one handler after the other, whatever others do in between;
- `Interleaving.in_sequence`: **without others, the results and the store are those of the scripts alone**, each on the
  store that the one before has left.
-/

namespace Async

variable {K V C β : Type}

/-- The steps of the handlers `order` are in the trace one handler after the other. -/
def InSequence (order : List Nat) (tr : Trace K V C) : Prop :=
  (tr.filter fun x => x.1.handler ∈ order) = order.flatMap fun i => tr.filter fun x => x.1.handler = i

instance [DecidableEq K] [DecidableEq V] [DecidableEq C] (order : List Nat) (tr : Trace K V C) :
    Decidable (InSequence order tr) :=
  inferInstanceAs (Decidable (_ = _))

/-- A single handler is in sequence. -/
theorem inSequence_singleton (i : Nat) (tr : Trace K V C) : InSequence [i] tr := by simp [InSequence]

variable [DecidableEq K]

/-- The scripts, each on the store that the one before has left: their results, and the store in the end. -/
def Script.execAll : List (Script K V C β) → Store K V → List β × Store K V
  | [], st => ([], st)
  | x :: xs, st => ((x.exec st).2.1 :: (execAll xs (x.exec st).2.2).1, (execAll xs (x.exec st).2.2).2)

section Moves

variable {st st' : Store K V} {xs xs' : List (Script K V C β)} {t : Turn} {e : Event K V C}

/-- A turn leaves of a script what the script alone would still do. -/
theorem Moves.exec (h : Moves st xs st' xs' t e) {x : Script K V C β} (hx : xs[t.handler]? = some x) :
    ∃ x', xs' = xs.set t.handler x' ∧ (x.exec st).2 = (x'.exec st').2 := by
  have hhead {y : Script K V C β} (head : xs[t.handler]? = some y) : x = y := Option.some.inj (hx.symm.trans head)
  cases h with
  | silent _ =>
    obtain ⟨hi, rfl⟩ := List.getElem?_eq_some_iff.mp hx
    exact ⟨_, (List.set_getElem_self hi).symm, rfl⟩
  | read head =>
    obtain rfl := hhead head
    exact ⟨_, rfl, rfl⟩
  | write head =>
    obtain rfl := hhead head
    exact ⟨_, rfl, rfl⟩
  | spawn head =>
    obtain rfl := hhead head
    exact ⟨_, rfl, rfl⟩

/-- A turn leaves the scripts of the others as they are. -/
theorem Moves.others (h : Moves st xs st' xs' t e) {i : Nat} (hi : t.handler ≠ i) : xs'[i]? = xs[i]? := by
  cases h with
  | silent _ => rfl
  | _ => exact List.getElem?_set_ne hi

end Moves

section Interleaving

variable {st₀ st : Store K V} {xs₀ xs : List (Script K V C β)} {tr : Trace K V C} {i : Nat}

/-- While only one script moves, it goes on as it would alone. -/
theorem Interleaving.block (h : Interleaving st₀ xs₀ tr st xs) (hi : ∀ x ∈ tr, x.1.handler = i) {x : Script K V C β}
    (hx : xs₀[i]? = some x) : ∃ x', xs = xs₀.set i x' ∧ (x.exec st₀).2 = (x'.exec st).2 := by
  induction h with
  | nil =>
    obtain ⟨hlen, rfl⟩ := List.getElem?_eq_some_iff.mp hx
    exact ⟨_, (List.set_getElem_self hlen).symm, rfl⟩
  | @snoc tr st st' xs xs' t e _ hm ih =>
    obtain ⟨y, rfl, hy⟩ := ih fun x hx => hi x (List.mem_append_left _ hx)
    obtain rfl : t.handler = i := hi (t, e) (by simp)
    obtain ⟨z, rfl, hz⟩ := hm.exec (List.getElem?_set_self (List.getElem?_eq_some_iff.mp hx).1)
    exact ⟨z, List.set_set .., hy.trans hz⟩

/-- A script that takes no turn stays as it is. -/
theorem Interleaving.others (h : Interleaving st₀ xs₀ tr st xs) (hi : ∀ x ∈ tr, x.1.handler ≠ i) :
    xs[i]? = xs₀[i]? := by
  induction h with
  | nil => rfl
  | @snoc tr st st' xs xs' t e _ hm ih =>
    rw [hm.others (hi (t, e) (by simp))]
    exact ih fun x hx => hi x (List.mem_append_left _ hx)

/-- Between any two turns there are a store and scripts. -/
theorem Interleaving.split {tr' : Trace K V C} (h : Interleaving st₀ xs₀ (tr ++ tr') st xs) :
    ∃ st₁ xs₁, Interleaving st₀ xs₀ tr st₁ xs₁ ∧ Interleaving st₁ xs₁ tr' st xs := by
  generalize htr : tr ++ tr' = l at h
  induction h generalizing tr' with
  | nil =>
    obtain ⟨rfl, rfl⟩ := List.append_eq_nil_iff.mp htr
    exact ⟨_, _, .nil, .nil⟩
  | @snoc l st st' xs xs' t e h hm ih =>
    rcases List.eq_nil_or_concat tr' with rfl | ⟨tr₁, x, rfl⟩
    · rw [List.append_nil] at htr
      subst htr
      exact ⟨_, _, h.snoc hm, .nil⟩
    · rw [List.concat_eq_append, ← List.append_assoc] at htr
      obtain ⟨hl, hx⟩ := List.append_inj' htr rfl
      obtain ⟨st₁, xs₁, h₁, h₂⟩ := ih hl
      obtain rfl := List.singleton_inj.mp hx
      rw [List.concat_eq_append]
      exact ⟨st₁, xs₁, h₁, h₂.snoc hm⟩

/-- Blocks of steps, each of a script that ends in it. -/
theorem Interleaving.blocks {block : Nat → Trace K V C} (hblock : ∀ i, ∀ x ∈ block i, x.1.handler = i) :
    ∀ {order : List Nat} {st₀ : Store K V} {xs₀ ys : List (Script K V C β)} {bs : List β}, order.Nodup →
      Interleaving st₀ xs₀ (order.flatMap block) st xs → order.map (xs₀[·]?) = ys.map some →
      order.map (xs[·]?) = bs.map (fun b => some (.done b)) → Script.execAll ys st₀ = (bs, st)
  | [], st₀, xs₀, ys, bs, _, h, hys, hbs => by
    obtain rfl := List.map_eq_nil_iff.mp hys.symm
    obtain rfl := List.map_eq_nil_iff.mp hbs.symm
    generalize htr : [].flatMap block = l at h
    cases h with
    | nil => rfl
    | snoc _ _ => simp at htr
  | i :: order, st₀, xs₀, y :: ys, b :: bs, hnodup, h, hys, hbs => by
    obtain ⟨hi, hnodup⟩ := List.nodup_cons.mp hnodup
    obtain ⟨hy, hys⟩ := List.cons.inj hys
    obtain ⟨hb, hbs⟩ := List.cons.inj hbs
    obtain ⟨st₁, xs₁, h₁, h₂⟩ := h.split
    have hrest : ∀ x ∈ order.flatMap block, x.1.handler ≠ i := by
      rintro x hx rfl
      obtain ⟨j, hj, hx⟩ := List.mem_flatMap.mp hx
      exact hi (hblock j x hx ▸ hj)
    -- the first script has ended before the others go on
    obtain ⟨y', rfl, hexec⟩ := h₁.block (hblock i) hy
    obtain rfl : y' = .done b := by
      have hlast := (h₂.others hrest).symm.trans hb
      rw [List.getElem?_set_self (List.getElem?_eq_some_iff.mp hy).1] at hlast
      exact Option.some.inj hlast
    -- and these still have their scripts
    have hothers : order.map ((xs₀.set i (.done b))[·]?) = ys.map some := by
      rw [← hys]
      exact List.map_congr_left fun j hj => List.getElem?_set_ne (by rintro rfl; exact hi hj)
    have hrec := Interleaving.blocks hblock hnodup h₂ hothers hbs
    rw [Script.execAll, hexec]
    simp only [Script.exec_done, hrec]

/-- **One script after the other**: if only the scripts `order` move, in sequence, and all of them end. -/
theorem Interleaving.in_sequence {order : List Nat} (hnodup : order.Nodup) {ys : List (Script K V C β)} {bs : List β}
    (h : Interleaving st₀ xs₀ (tr.filter fun x => x.1.handler ∈ order) st xs) (hseq : InSequence order tr)
    (hys : order.map (xs₀[·]?) = ys.map some) (hbs : order.map (xs[·]?) = bs.map fun b => some (.done b)) :
    Script.execAll ys st₀ = (bs, st) := by
  rw [hseq] at h
  exact h.blocks (fun i x hx => of_decide_eq_true (List.mem_filter.mp hx).2) hnodup hys hbs

end Interleaving

end Async
