import Seata.Async.Rules

/-!
# Looking for a key and setting it

Handlers that look for a key and set it when it was absent, by two separate operations (`testAndSet`). A handler wins
when it has set the key.

- `Interleaving.contest`: along every interleaving, the handlers that have won or will win are those that have found
  the key absent;
- `Interleaving.one_winner`: of handlers that are all done exactly one has won if and only if nobody else had looked
  before the key was set (`Orderly`).
-/

namespace Async

variable {K V C β : Type} [DecidableEq K]

/-- Exactly one place of a list meets the condition. -/
theorem countP_eq_one_iff {α : Type} {p : α → Bool} : ∀ {l : List α}, l.countP p = 1 ↔
    ∃ (i : Nat) (a : α), l[i]? = some a ∧ p a = true ∧ ∀ (j : Nat) (b : α), l[j]? = some b → p b = true → j = i
  | [] => by simp
  | x :: l => by
    cases hx : p x with
    | true =>
      rw [List.countP_cons_of_pos hx, Nat.add_eq_right, List.countP_eq_zero]
      constructor
      · intro h
        refine ⟨0, x, rfl, hx, fun j b hj hb => ?_⟩
        cases j with
        | zero => rfl
        | succ j => exact absurd hb (h b (List.mem_of_getElem? hj))
      · rintro ⟨i, a, -, -, honly⟩ b hb hp
        obtain ⟨j, hj⟩ := List.getElem?_of_mem hb
        have h₀ := honly 0 x rfl hx
        have h₁ := honly (j + 1) b hj hp
        omega
    | false =>
      rw [List.countP_cons_of_neg (by simp [hx]), countP_eq_one_iff]
      constructor
      · rintro ⟨i, a, hi, ha, honly⟩
        refine ⟨i + 1, a, hi, ha, fun j b hj hb => ?_⟩
        cases j with
        | zero =>
          cases hj
          rw [hx] at hb
          cases hb
        | succ j => exact congrArg (· + 1) (honly j b hj hb)
      · rintro ⟨i, a, hi, ha, honly⟩
        cases i with
        | zero =>
          cases hi
          rw [hx] at ha
          cases ha
        | succ i => exact ⟨i, a, hi, ha, fun j b hj hb => Nat.succ.inj (honly (j + 1) b hj hb)⟩

/-! ## The contest for a key -/

/-- Look for the key, and set it if it is absent. -/
def Script.testAndSet (k : K) (v : V) (lost won : β) : Script K V C β :=
  .read k fun old => if old.isSome then .done lost else .write k v (.done won)

/-- A look at the key. -/
def looks (k : K) : Turn × Event K V C → Bool
  | (_, .get k' _) => k' = k
  | _ => false

/-- A look at the key that has found nothing. -/
def misses (k : K) : Turn × Event K V C → Bool
  | (_, .get k' none) => k' = k
  | _ => false

/-- A write to the key. -/
def sets (k : K) : Turn × Event K V C → Bool
  | (_, .put k' _) => k' = k
  | _ => false

/-- **Nobody else looks before the key is set**: a second look comes after a write. -/
def Orderly (k : K) (tr : Trace K V C) : Prop :=
  Along (fun tr x => looks k x = true → tr.any (looks k) = true → tr.any (sets k) = true) tr

instance (k : K) (tr : Trace K V C) : Decidable (Orderly k tr) := inferInstanceAs (Decidable (Along _ tr))

theorem looks_hidden {k : K} {t : Turn} {e : Event K V C} (h : e.visible = false) :
    looks k (t, e) = false ∧ misses k (t, e) = false ∧ sets k (t, e) = false := by
  cases e <;> first | exact ⟨rfl, rfl, rfl⟩ | cases h

section Contest

variable (k : K) (v : V) (win : β → Bool)

/-- Where a handler of the contest can be. -/
inductive Contends : Script K V C β → Prop
  | fresh {lost won : β} (hlost : win lost = false) (hwon : win won = true) : Contends (.testAndSet k v lost won)
  | late {won : β} (hwon : win won = true) : Contends (.write k v (.done won))
  | done (b : β) : Contends (.done b)

/-- The handler has won, or has found nothing and will win. -/
def ahead : Script K V C β → Bool
  | .write _ _ _ => true
  | .done b => win b
  | _ => false

/-- The state of the contest after a trace. -/
structure Contest (tr : Trace K V C) (st : Store K V) (xs : List (Script K V C β)) : Prop where
  scripts : ∀ x ∈ xs, Contends k v win x
  stored : (st.lookup k).isSome = tr.any (sets k)
  winners : xs.countP (ahead win) = tr.countP (misses k)
  losers : ∀ b, .done b ∈ xs → win b = false → tr.any (sets k) = true
  missed : tr.any (sets k) = true → 0 < tr.countP (misses k)
  looked : tr.any (sets k) = false → (tr.any (looks k) = true ↔ 0 < tr.countP (misses k))
  orderly : Orderly k tr ↔ tr.countP (misses k) ≤ 1

end Contest

variable {k : K} {v : V} {win : β → Bool} {st st' : Store K V} {xs xs' : List (Script K V C β)} {tr : Trace K V C}

section Snoc

variable {α : Type} (p : α → Bool) (l : List α) (x : α)

theorem any_snoc : (l ++ [x]).any p = (l.any p || p x) := by simp

theorem countP_snoc : (l ++ [x]).countP p = l.countP p + (p x).toNat := by
  rw [List.countP_append, List.countP_singleton]
  cases p x <;> rfl

end Snoc

theorem orderly_snoc {x : Turn × Event K V C} :
    Orderly k (tr ++ [x]) ↔ Orderly k tr ∧
      (looks k x = true → tr.any (looks k) = true → tr.any (sets k) = true) := along_snoc

/-- An event that neither looks at the key nor sets it. -/
theorem Contest.hidden {x : Turn × Event K V C} (h : Contest k v win tr st xs)
    (hx : looks k x = false ∧ misses k x = false ∧ sets k x = false) : Contest k v win (tr ++ [x]) st xs := by
  obtain ⟨hl, hm, hs⟩ := hx
  have hsets : (tr ++ [x]).any (sets k) = tr.any (sets k) := by rw [any_snoc, hs, Bool.or_false]
  have hlooks : (tr ++ [x]).any (looks k) = tr.any (looks k) := by rw [any_snoc, hl, Bool.or_false]
  have hmisses : (tr ++ [x]).countP (misses k) = tr.countP (misses k) := by rw [countP_snoc, hm]; rfl
  have horderly : Orderly k (tr ++ [x]) ↔ Orderly k tr := by rw [orderly_snoc, hl]; simp
  exact ⟨h.scripts, hsets ▸ h.stored, hmisses ▸ h.winners, hsets ▸ h.losers, hsets ▸ hmisses ▸ h.missed,
    hsets ▸ hlooks ▸ hmisses ▸ h.looked, horderly.trans (hmisses ▸ h.orderly)⟩

section Turns

variable {i : Nat} {lost won : β} (h : Contest k v win tr st xs)
include h

theorem Contest.set {x y : Script K V C β} (hi : xs[i]? = some x) (hx : ahead win x = false) :
    (xs.set i y).countP (ahead win) = tr.countP (misses k) + (ahead win y).toNat := by
  obtain ⟨hlt, hxi⟩ := List.getElem?_eq_some_iff.mp hi
  rw [List.countP_set hlt, hxi, hx, ← h.winners]
  cases ahead win y <;> rfl

/-- A handler that finds the key has lost. -/
theorem Contest.find {old : V} (hi : xs[i]? = some (.testAndSet k v lost won)) (hlost : win lost = false)
    (hst : st.lookup k = some old) :
    Contest k v win (tr ++ [(.main i, .get k (some old))]) st (xs.set i (.done lost)) := by
  have hsets : tr.any (sets k) = true := by rw [← h.stored, hst]; rfl
  constructor
  · exact forall_mem_set h.scripts (.done lost)
  · rw [any_snoc, hsets, hst]; rfl
  · rw [countP_snoc, h.set hi rfl, ahead, hlost]; rfl
  · intro _ _ _
    rw [any_snoc, hsets]; rfl
  · intro _
    rw [countP_snoc]
    exact Nat.add_pos_left (h.missed hsets) _
  · intro hf
    rw [any_snoc, hsets] at hf
    cases hf
  · rw [countP_snoc, orderly_snoc, hsets, h.orderly]
    simp [misses]

/-- A handler that does not find the key will win. -/
theorem Contest.miss (hi : xs[i]? = some (.testAndSet k v lost won)) (hwon : win won = true)
    (hst : st.lookup k = none) :
    Contest k v win (tr ++ [(.main i, .get k none)]) st (xs.set i (.write k v (.done won))) := by
  have hsets : tr.any (sets k) = false := by rw [← h.stored, hst]; rfl
  constructor
  · exact forall_mem_set h.scripts (.late hwon)
  · rw [any_snoc, hsets, hst]; rfl
  · rw [countP_snoc, h.set hi rfl]
    simp [ahead, misses]
  · intro b hb hlost
    rcases List.mem_or_eq_of_mem_set hb with hb | hb
    · rw [any_snoc, h.losers b hb hlost]; rfl
    · cases hb
  · intro hf
    rw [any_snoc, hsets] at hf
    cases hf
  · intro _
    rw [countP_snoc, any_snoc]
    simp [looks, misses]
  · have hlooked := h.looked hsets
    rw [countP_snoc, orderly_snoc, h.orderly, hsets, hlooked]
    simp only [looks, misses, decide_true, Bool.toNat_true, true_imp_iff, Bool.false_eq_true, imp_false]
    omega

/-- A handler that sets the key has won. -/
theorem Contest.write (hi : xs[i]? = some (.write k v (.done won))) (hwon : win won = true) :
    Contest k v win (tr ++ [(.main i, .put k v)]) (st.insert k v) (xs.set i (.done won)) := by
  obtain ⟨hlt, hxi⟩ := List.getElem?_eq_some_iff.mp hi
  have hpos : 0 < xs.countP (ahead win) := List.countP_pos_iff.mpr ⟨_, List.mem_of_getElem? hi, rfl⟩
  constructor
  · exact forall_mem_set h.scripts (.done won)
  · rw [any_snoc, Finmap.lookup_insert]
    simp [sets]
  · rw [countP_snoc, ← h.winners, List.countP_set hlt, hxi, ahead, ahead, hwon]
    simp only [misses, ↓reduceIte, Bool.toNat_false]
    omega
  · intro _ _ _
    rw [any_snoc]
    simp [sets]
  · intro _
    rw [countP_snoc, ← h.winners]
    exact Nat.add_pos_left hpos _
  · intro hf
    rw [any_snoc] at hf
    simp [sets] at hf
  · rw [countP_snoc, orderly_snoc, h.orderly]
    simp [looks, misses]

/-- **One turn** of the contest. -/
theorem Contest.step {t : Turn} {e : Event K V C} (hm : Moves st xs st' xs' t e) :
    Contest k v win (tr ++ [(t, e)]) st' xs' := by
  cases hm with
  | silent hidden => exact h.hidden (looks_hidden hidden)
  | @read i k' f head =>
    generalize hx : Script.read k' f = x at head
    cases h.scripts x (List.mem_of_getElem? head) with
    | late _ => cases hx
    | done _ => cases hx
    | @fresh lost won hlost hwon =>
      obtain ⟨rfl, rfl⟩ := Script.read.inj hx
      cases hst : st.lookup k' with
      | some old => exact h.find head hlost hst
      | none => exact h.miss head hwon hst
  | @write i k' v' y head =>
    generalize hx : Script.write k' v' y = x at head
    cases h.scripts x (List.mem_of_getElem? head) with
    | fresh _ _ => cases hx
    | done _ => cases hx
    | @late won hwon =>
      obtain ⟨rfl, rfl, rfl⟩ := Script.write.inj hx
      exact h.write head hwon
  | spawn head =>
    generalize hx : Script.spawn _ _ = x at head
    cases h.scripts x (List.mem_of_getElem? head) <;> cases hx

end Turns

/-- **The contest along every interleaving.** -/
theorem Interleaving.contest {st₀ : Store K V} {xs₀ : List (Script K V C β)} (h : Interleaving st₀ xs₀ tr st xs)
    (hst : st₀.lookup k = none)
    (hxs : ∀ x ∈ xs₀, ∃ lost won, win lost = false ∧ win won = true ∧ x = .testAndSet k v lost won) :
    Contest k v win tr st xs := by
  induction h with
  | nil =>
    refine ⟨fun x hx => ?_, by simp [hst], ?_, fun b hb _ => ?_, by simp, by simp, by simp [Orderly, Along]⟩
    · obtain ⟨lost, won, hlost, hwon, rfl⟩ := hxs x hx
      exact .fresh hlost hwon
    · rw [List.countP_nil, List.countP_eq_zero]
      intro x hx
      obtain ⟨lost, won, -, -, rfl⟩ := hxs x hx
      simp [Script.testAndSet, ahead]
    · obtain ⟨lost, won, -, -, hx⟩ := hxs _ hb
      cases hx
  | snoc _ hm ih => exact ih.step hm

/-- **Exactly one handler wins** if and only if nobody else looks before the key is set. -/
theorem Interleaving.one_winner {st₀ : Store K V} {xs₀ : List (Script K V C β)} (h : Interleaving st₀ xs₀ tr st xs)
    (hst : st₀.lookup k = none)
    (hxs : ∀ x ∈ xs₀, ∃ lost won, win lost = false ∧ win won = true ∧ x = .testAndSet k v lost won)
    (hdone : ∀ x ∈ xs, ∃ b, x = .done b) (hne : xs ≠ []) : xs.countP (ahead win) = 1 ↔ Orderly k tr := by
  have hc : Contest k v win tr st xs := h.contest hst hxs
  have hpos : 0 < tr.countP (misses k) := by
    obtain ⟨x, hx⟩ := List.exists_mem_of_ne_nil xs hne
    obtain ⟨b, rfl⟩ := hdone x hx
    cases hb : win b with
    | true =>
      rw [← hc.winners]
      exact List.countP_pos_iff.mpr ⟨_, hx, hb⟩
    | false => exact hc.missed (hc.losers b hx hb)
  rw [hc.orderly, hc.winners]
  omega

end Async
