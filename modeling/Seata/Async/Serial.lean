import Seata.Async.Rules

/-!
# Validated saves are serializable

Handlers that load the value under one key, change their own copy and save it, any number of times, interleave. A save
is validated when nobody else has saved since the handler's own last load or save (`outdated`). If all saves of a
complete run are validated, the value left under the key is that of the handlers run one at a time in some order.

- `Script.Saves`, `Modifies`: the shape of such a handler; all its saves but the last keep the `shape` of the value, and
  whether it saves at all depends on the shape alone;
- `Stuck`: a handler that still has to save a copy that is out of date, or two that both have one — nothing leads out of
  this but a save that is not validated;
- `Interleaving.serial`: the result.
-/

namespace Async

variable {K V C β σ ι : Type}

/-! ## Handlers that load and save -/

namespace Script

/-- The value of the last save of a script that only saves. -/
def last : Script K V C β → Option V
  | .done _ => none
  | .read _ _ => none
  | .write _ v x => some (x.last.getD v)
  | .spawn _ x => x.last

variable (k₀ : K) (P : Option V → Prop) (shape : Option V → σ)

/-- The script only saves values within `P` under `k₀`, and all but the last of them have the shape `a`. -/
def Saves (a : σ) : Script K V C β → Prop
  | .done _ => True
  | .read _ _ => False
  | .write k v x => k = k₀ ∧ P (some v) ∧ (x.last.isSome → shape (some v) = a) ∧ x.Saves a
  | .spawn _ x => x.Saves a

theorem last_spawnAll (x : Script K V C β) : ∀ cs : List C, (spawnAll cs x).last = x.last
  | [] => rfl
  | _ :: cs => last_spawnAll x cs

variable {k₀ P shape}

theorem Saves.spawnAll {a : σ} {x : Script K V C β} (h : x.Saves k₀ P shape a) :
    ∀ cs : List C, (Script.spawnAll cs x).Saves k₀ P shape a
  | [] => h
  | _ :: cs => Saves.spawnAll h cs

section Try

variable {E α : Type} {c : Core C E} {k : K} {v : V} {f : Core C E → Script K V C (Except E α × Core C E)}

/-- A save that does not fail is a save, whatever follows. -/
theorem last_tryWrite : (tryWrite c k v f).last.isSome = (c.env.fault c.ios).isNone := by
  unfold tryWrite
  cases c.env.fault c.ios <;> rfl

theorem Saves.tryWrite {a : σ} (hk : k = k₀) (hv : P (some v)) (ha : (f c.io).last.isSome → shape (some v) = a)
    (hf : (f c.io).Saves k₀ P shape a) : (Script.tryWrite c k v f).Saves k₀ P shape a := by
  unfold Script.tryWrite
  split
  · trivial
  · exact ⟨hk, hv, ha, hf⟩

end Try

theorem Saves.exec [DecidableEq K] {a : σ} : ∀ {x : Script K V C β} {st : Store K V}, x.Saves k₀ P shape a →
    (x.exec st).2.2.lookup k₀ = x.last.or (st.lookup k₀)
  | .done _, _, _ => rfl
  | .write k v x, st, h => by
    obtain ⟨hk, -, -, hx⟩ := h
    show (x.exec (st.insert k v)).2.2.lookup k₀ = _
    rw [hx.exec, last, hk, Finmap.lookup_insert]
    cases x.last <;> rfl
  | .spawn c x, st, h => Saves.exec (x := x) h

theorem Saves.last_within {a : σ} : ∀ {x : Script K V C β} {v : V}, x.Saves k₀ P shape a → x.last = some v → P (some v)
  | .write k v x, v', h, hl => by
    obtain ⟨-, hv, -, hx⟩ := h
    simp only [last, Option.some.injEq] at hl
    cases hx' : x.last with
    | none =>
      rw [hx', Option.getD_none] at hl
      exact hl ▸ hv
    | some w =>
      rw [hx', Option.getD_some] at hl
      exact hl ▸ hx.last_within hx'
  | .spawn c x, v, h, hl => Saves.last_within (x := x) h hl

end Script

open Script

/-- What a handler does with the value it has loaded. -/
structure Modifies (k₀ : K) (P : Option V → Prop) (shape : Option V → σ) (f : Option V → Script K V C β) : Prop where
  saves : ∀ v, P v → (f v).Saves k₀ P shape (shape v)
  alike : ∀ v v', P v → P v' → shape v = shape v' → (f v).last.isSome → (f v').last.isSome

/-- The value that the handler leaves. -/
def effect (f : Option V → Script K V C β) (v : Option V) : Option V := (f v).last.or v

theorem effect_within {k₀ : K} {P : Option V → Prop} {shape : Option V → σ} {f : Option V → Script K V C β}
    (hf : Modifies k₀ P shape f) {v : Option V} (hv : P v) : P (effect f v) := by
  unfold effect
  cases hl : (f v).last with
  | none => exact hv
  | some w => exact (hf.saves v hv).last_within hl

theorem effect_eq_exec [DecidableEq K] {k₀ : K} {P : Option V → Prop} {shape : Option V → σ}
    {f : Option V → Script K V C β} (hf : Modifies k₀ P shape f) {st : Store K V} (hst : P (st.lookup k₀)) :
    ((Script.read k₀ f).exec st).2.2.lookup k₀ = effect f (st.lookup k₀) := by
  rw [exec_read]
  exact (hf.saves _ hst).exec

/-! ## Validated saves -/

section Validated

variable [DecidableEq K]

/-- Whether the copy of handler `i` is out of date after a step: a load or a save of its own renews it, a save of
another handler outdates it. -/
def touch (k : K) (i : Nat) (old : Bool) : Turn × Event K V C → Bool
  | (.main j, .get k' _) => if j = i ∧ k' = k then false else old
  | (.main j, .put k' _) => if k' = k then decide (j ≠ i) else old
  | _ => old

/-- Another handler has saved since handler `i` last loaded or saved. -/
def outdated (k : K) (i : Nat) (tr : Trace K V C) : Bool := tr.foldl (touch k i) false

theorem outdated_snoc (k : K) (i : Nat) (tr : Trace K V C) (x : Turn × Event K V C) :
    outdated k i (tr ++ [x]) = touch k i (outdated k i tr) x := List.foldl_append

/-- A save is made from a copy that is up to date. -/
def UpToDate (k : K) (before : Trace K V C) : Turn × Event K V C → Prop
  | (.main i, .put k' _) => k' = k → outdated k i before = false
  | _ => True

instance (k : K) (before : Trace K V C) (x : Turn × Event K V C) : Decidable (UpToDate k before x) := by
  unfold UpToDate
  split <;> infer_instance

/-- **Every save finds the value as its handler last loaded or saved it.** -/
def Validated (k : K) (tr : Trace K V C) : Prop := Along (UpToDate k) tr

instance (k : K) (tr : Trace K V C) : Decidable (Validated k tr) := inferInstanceAs (Decidable (Along _ _))

end Validated

/-! ## Two copies at once -/

section Stuck

variable [DecidableEq K] {k₀ : K} {P : Option V → Prop} {shape : Option V → σ} {st st' : Store K V}
  {xs xs' : List (Script K V C β)} {tr : Trace K V C} {t : Turn} {e : Event K V C}

/-- What is left of the handler is to save a copy. -/
def HasCopy (k₀ : K) (P : Option V → Prop) (shape : Option V → σ) (x : Script K V C β) : Prop :=
  x.last.isSome ∧ ∃ a, x.Saves k₀ P shape a

/-- **A handler with a copy** keeps it until it saves, and cannot renew it in any other way. -/
theorem HasCopy.step {i : Nat} {x : Script K V C β} (hx : xs[i]? = some x) (hc : HasCopy k₀ P shape x)
    (h : Moves st xs st' xs' t e) :
    (∃ v, t = .main i ∧ e = .put k₀ v) ∨
      (∃ x', xs'[i]? = some x' ∧ HasCopy k₀ P shape x') ∧ touch k₀ i true (t, e) = true := by
  obtain ⟨hl, a, hs⟩ := hc
  have hstays {j : Nat} {y : Script K V C β} (hj : i ≠ j) : ∃ x', (xs.set j y)[i]? = some x' ∧ HasCopy k₀ P shape x' :=
    ⟨x, by rw [List.getElem?_set_ne hj.symm, hx], hl, a, hs⟩
  cases h with
  | silent hidden =>
    cases e <;> cases hidden <;> exact .inr ⟨⟨x, hx, hl, a, hs⟩, by cases t <;> rfl⟩
  | @read j k f head =>
    have hj : i ≠ j := by
      rintro rfl
      obtain rfl := Option.some.inj (hx.symm.trans head)
      exact hs
    exact .inr ⟨hstays hj, by simp [touch, hj.symm]⟩
  | @write j k v y head =>
    by_cases hj : i = j
    · subst hj
      obtain rfl := Option.some.inj (hx.symm.trans head)
      exact .inl ⟨v, rfl, by rw [hs.1]⟩
    · exact .inr ⟨hstays hj, by simp [touch, Ne.symm hj]⟩
  | @spawn j c y head =>
    by_cases hj : i = j
    · subst hj
      obtain rfl := Option.some.inj (hx.symm.trans head)
      have hi := (List.getElem?_eq_some_iff.mp hx).1
      exact .inr ⟨⟨y, List.getElem?_set_self hi, hl, a, hs⟩, rfl⟩
    · exact .inr ⟨hstays hj, rfl⟩

/-- A handler that has to save an outdated copy, or two that have a copy. -/
inductive Stuck (k₀ : K) (P : Option V → Prop) (shape : Option V → σ) (tr : Trace K V C)
    (xs : List (Script K V C β)) : Prop
  | old {i : Nat} {x : Script K V C β} (here : xs[i]? = some x) (copy : HasCopy k₀ P shape x)
      (outdated : outdated k₀ i tr = true) : Stuck k₀ P shape tr xs
  | clash {i j : Nat} {x y : Script K V C β} (ne : i ≠ j) (left : xs[i]? = some x) (right : xs[j]? = some y)
      (copyLeft : HasCopy k₀ P shape x) (copyRight : HasCopy k₀ P shape y) : Stuck k₀ P shape tr xs

/-- Of two copies, the save of one outdates the other. -/
theorem stuck_of_save {i j : Nat} {y : Script K V C β} {v : V} (hij : i ≠ j) (hy : xs[j]? = some y)
    (hc : HasCopy k₀ P shape y) (h : Moves st xs st' xs' (.main i) (.put k₀ v)) :
    Stuck k₀ P shape (tr ++ [(.main i, .put k₀ v)]) xs' := by
  rcases hc.step hy h with ⟨v', ht, -⟩ | ⟨⟨y', hy', hc'⟩, -⟩
  · cases ht
    exact absurd rfl hij
  · exact .old hy' hc' (by rw [outdated_snoc]; simp [touch, hij])

/-- **Nothing leads out of it** but a save that is not validated. -/
theorem Stuck.step (hs : Stuck k₀ P shape tr xs) (h : Moves st xs st' xs' t e) (hv : UpToDate k₀ tr (t, e)) :
    Stuck k₀ P shape (tr ++ [(t, e)]) xs' := by
  cases hs with
  | @old i x here copy old =>
    rcases copy.step here h with ⟨v, rfl, rfl⟩ | ⟨⟨x', hx', hc'⟩, ht⟩
    · have hfresh := hv rfl
      rw [old] at hfresh
      cases hfresh
    · exact .old hx' hc' (by rw [outdated_snoc, old, ht])
  | @clash i j x y ne left right copyLeft copyRight =>
    rcases copyLeft.step left h with ⟨v, rfl, rfl⟩ | ⟨⟨x', hx', hcx⟩, -⟩
    · exact stuck_of_save ne right copyRight h
    · rcases copyRight.step right h with ⟨v, rfl, rfl⟩ | ⟨⟨y', hy', hcy⟩, -⟩
      · exact stuck_of_save ne.symm left copyLeft h
      · exact .clash ne hx' hy' hcx hcy

/-- Somebody still has something to do. -/
theorem Stuck.unfinished (hs : Stuck k₀ P shape tr xs) : ∃ x ∈ xs, ∀ b, x ≠ .done b := by
  have hdone {x : Script K V C β} (hc : HasCopy k₀ P shape x) (b : β) : x ≠ .done b := by
    rintro rfl
    cases hc.1
  cases hs with
  | old here copy _ => exact ⟨_, List.mem_of_getElem? here, hdone copy⟩
  | clash _ left _ copy _ => exact ⟨_, List.mem_of_getElem? left, hdone copy⟩

end Stuck

/-! ## The order -/

section Serial

variable {k₀ : K} {P : Option V → Prop} {shape : Option V → σ} {rs : List ι} {F : ι → Option V → Script K V C β}
  {v₀ : Option V}

/-- The handlers one at a time, as far as the value under the key goes. -/
def serially (F : ι → Option V → Script K V C β) (v : Option V) (rs : List ι) : Option V :=
  rs.foldl (fun v r => effect (F r) v) v

theorem serially_snoc (F : ι → Option V → Script K V C β) (v : Option V) (rs : List ι) (r : ι) :
    serially F v (rs ++ [r]) = effect (F r) (serially F v rs) := by
  simp [serially]

/-- The value under the key after running the handlers one at a time. -/
theorem serially_eq_exec [DecidableEq K] {run : Store K V → ι → Store K V} : ∀ {rs : List ι} {st : Store K V},
    (∀ r ∈ rs, Modifies k₀ P shape (F r)) → (∀ r ∈ rs, ∀ st, run st r = ((Script.read k₀ (F r)).exec st).2.2) →
    P (st.lookup k₀) → (rs.foldl run st).lookup k₀ = serially F (st.lookup k₀) rs
  | [], _, _, _, _ => rfl
  | r :: rs, st, hF, hrun, hst => by
    have hr := hF r List.mem_cons_self
    have hlookup : (run st r).lookup k₀ = effect (F r) (st.lookup k₀) := by
      rw [hrun r List.mem_cons_self, effect_eq_exec hr hst]
    have ih := serially_eq_exec (fun r' h => hF r' (List.mem_cons_of_mem _ h))
      (fun r' h => hrun r' (List.mem_cons_of_mem _ h))
      (by rw [hlookup]; exact effect_within hr hst)
    rw [List.foldl_cons, ih, hlookup]
    rfl

theorem serially_within {v : Option V} (hv : P v) : ∀ {rs : List ι}, (∀ r ∈ rs, Modifies k₀ P shape (F r)) →
    P (serially F v rs) := by
  intro rs
  induction rs using List.reverseRecOn with
  | nil => exact fun _ => hv
  | append_singleton rs r ih =>
    intro hF
    rw [serially_snoc]
    exact effect_within (hF r (by simp)) (ih fun r' h => hF r' (List.mem_append_left _ h))

/-- The handlers with the given numbers. -/
def pick (rs : List ι) (order : List Nat) : List ι := order.filterMap (rs[·]?)

theorem pick_snoc {order : List Nat} {i : Nat} {r : ι} (hr : rs[i]? = some r) :
    pick rs (order ++ [i]) = pick rs order ++ [r] := by
  simp [pick, hr]

theorem pick_range : ∀ rs : List ι, pick rs (List.range rs.length) = rs := by
  intro rs
  induction rs using List.reverseRecOn with
  | nil => rfl
  | append_singleton rs r ih =>
    have hold : pick (rs ++ [r]) (List.range rs.length) = pick rs (List.range rs.length) := by
      apply List.filterMap_congr
      intro i hi
      rw [List.getElem?_append_left (List.mem_range.mp hi)]
    rw [List.length_append, List.length_singleton, List.range_succ,
      pick_snoc (by simp : (rs ++ [r])[rs.length]? = some r), hold, ih]

theorem mem_of_mem_pick {order : List Nat} {r : ι} (h : r ∈ pick rs order) : r ∈ rs := by
  obtain ⟨i, -, hi⟩ := List.mem_filterMap.mp h
  exact List.mem_of_getElem? hi

/-- A handler that has not begun, or has its place in the order and nothing more to save. -/
def Resting (k₀ : K) (P : Option V → Prop) (shape : Option V → σ) (rs : List ι) (F : ι → Option V → Script K V C β)
    (order : List Nat) (i : Nat) (x : Script K V C β) : Prop :=
  (i ∉ order ∧ ∃ r, rs[i]? = some r ∧ x = .read k₀ (F r)) ∨ (i ∈ order ∧ x.last = none ∧ ∃ a, x.Saves k₀ P shape a)

section Resting

variable {order : List Nat} {i : Nat}

theorem Resting.read {k : K} {f : Option V → Script K V C β} (h : Resting k₀ P shape rs F order i (.read k f)) :
    i ∉ order ∧ k = k₀ ∧ ∃ r, rs[i]? = some r ∧ f = F r := by
  rcases h with ⟨hi, r, hr, hx⟩ | ⟨-, -, a, hs⟩
  · cases hx
    exact ⟨hi, rfl, r, hr, rfl⟩
  · exact hs.elim

theorem Resting.not_write {k : K} {v : V} {x : Script K V C β}
    (h : Resting k₀ P shape rs F order i (.write k v x)) : False := by
  rcases h with ⟨-, r, -, hx⟩ | ⟨-, hl, -⟩
  · cases hx
  · cases hl

theorem Resting.spawn {c : C} {x : Script K V C β} (h : Resting k₀ P shape rs F order i (.spawn c x)) :
    Resting k₀ P shape rs F order i x := by
  rcases h with ⟨-, r, -, hx⟩ | ⟨hi, hl, a, hs⟩
  · cases hx
  · exact .inr ⟨hi, hl, a, hs⟩

theorem Resting.join {j : Nat} {x : Script K V C β} (h : Resting k₀ P shape rs F order j x) (hij : j ≠ i) :
    Resting k₀ P shape rs F (order ++ [i]) j x := by
  rcases h with ⟨hj, h⟩ | ⟨hj, h⟩
  · exact .inl ⟨by simp [hj, hij], h⟩
  · exact .inr ⟨List.mem_append_left _ hj, h⟩

end Resting

/-- Numbers of different handlers. -/
structure Places (rs : List ι) (order : List Nat) : Prop where
  nodup : order.Nodup
  known : ∀ i ∈ order, i < rs.length

theorem Places.snoc {order : List Nat} {i : Nat} {r : ι} (h : Places rs order) (hi : i ∉ order) (hr : rs[i]? = some r) :
    Places rs (order ++ [i]) := by
  constructor
  · rw [← List.concat_eq_append]
    exact h.nodup.concat hi
  · intro j hj
    rcases List.mem_append.mp hj with hj | hj
    · exact h.known j hj
    · rw [List.mem_singleton.mp hj]
      exact (List.getElem?_eq_some_iff.mp hr).1

/-- Every handler has its place. -/
theorem Places.perm {order : List Nat} (h : Places rs order) (hall : ∀ i < rs.length, i ∈ order) :
    (pick rs order).Perm rs := by
  have hperm : order.Perm (List.range rs.length) :=
    (List.perm_ext_iff_of_nodup h.nodup List.nodup_range).mpr fun i =>
      ⟨fun hi => List.mem_range.mpr (h.known i hi), fun hi => hall i (List.mem_range.mp hi)⟩
  have := hperm.filterMap (rs[·]?)
  rwa [← pick, ← pick, pick_range] at this

/-- A handler that saves nothing leaves the value alone, wherever it stands among handlers that keep its shape. -/
theorem serially_skip (hF : ∀ r ∈ rs, Modifies k₀ P shape (F r)) (h₀ : P v₀) {order : List Nat} {j : Nat} {r : ι}
    (hr : rs[j]? = some r) {v : Option V} (hv : P v) (hs : shape v = shape (serially F v₀ (pick rs order)))
    (hl : ¬ (F r v).last.isSome = true) :
    serially F v₀ (pick rs (order ++ [j])) = serially F v₀ (pick rs order) := by
  have hr' := hF r (List.mem_of_getElem? hr)
  have hl' : ¬ (F r (serially F v₀ (pick rs order))).last.isSome = true := fun h =>
    hl (hr'.alike _ _ (serially_within h₀ fun r h => hF r (mem_of_mem_pick h)) hv hs.symm h)
  rw [pick_snoc hr, serially_snoc, effect, Option.not_isSome_iff_eq_none.mp hl', Option.none_or]

variable [DecidableEq K]

/-- The handlers of the order are done, and the others have not begun. -/
structure Idle (k₀ : K) (P : Option V → Prop) (shape : Option V → σ) (rs : List ι) (F : ι → Option V → Script K V C β)
    (v₀ : Option V) (order : List Nat) (st : Store K V) (xs : List (Script K V C β)) : Prop where
  places : Places rs order
  resting : ∀ i x, xs[i]? = some x → Resting k₀ P shape rs F order i x
  value : st.lookup k₀ = serially F v₀ (pick rs order)

/-- One more handler, `i`, is at work: it has loaded the value that the order leaves, and may have saved since. -/
structure Active (k₀ : K) (P : Option V → Prop) (shape : Option V → σ) (rs : List ι) (F : ι → Option V → Script K V C β)
    (v₀ : Option V) (order : List Nat) (i : Nat) (st : Store K V) (xs : List (Script K V C β)) : Prop where
  places : Places rs order
  resting : ∀ j x, j ≠ i → xs[j]? = some x → Resting k₀ P shape rs F order j x
  new : i ∉ order
  within : P (st.lookup k₀)
  alike : shape (st.lookup k₀) = shape (serially F v₀ (pick rs order))
  here : ∃ x r, xs[i]? = some x ∧ rs[i]? = some r ∧ x.last.isSome ∧
    x.last = (F r (serially F v₀ (pick rs order))).last ∧
    x.Saves k₀ P shape (shape (serially F v₀ (pick rs order)))

section Steps

variable {st st' : Store K V} {xs xs' : List (Script K V C β)} {tr : Trace K V C} {t : Turn} {e : Event K V C}
  {order : List Nat}

theorem Idle.step (hF : ∀ r ∈ rs, Modifies k₀ P shape (F r)) (h₀ : P v₀) (hi : Idle k₀ P shape rs F v₀ order st xs)
    (h : Moves st xs st' xs' t e) : (∃ order', Idle k₀ P shape rs F v₀ order' st' xs') ∨
      ∃ i, Active k₀ P shape rs F v₀ order i st' xs' := by
  have hP : P (st.lookup k₀) := hi.value ▸ serially_within h₀ fun r h => hF r (mem_of_mem_pick h)
  cases h with
  | silent hidden => exact .inl ⟨order, hi⟩
  | @read j k f head =>
    obtain ⟨hj, rfl, r, hr, rfl⟩ := (hi.resting j _ head).read
    have hlt := (List.getElem?_eq_some_iff.mp head).1
    have hsaves := (hF r (List.mem_of_getElem? hr)).saves _ hP
    by_cases hl : (F r (st.lookup k)).last.isSome = true
    · refine .inr ⟨j, hi.places, fun j' x hne hx => ?_, hj, hP, by rw [hi.value],
        _, r, List.getElem?_set_self hlt, hr, hl, by rw [hi.value], hi.value ▸ hsaves⟩
      rw [List.getElem?_set_ne (Ne.symm hne)] at hx
      exact hi.resting j' x hx
    · refine .inl ⟨order ++ [j], ?_, fun j' x hx => ?_, ?_⟩
      · exact hi.places.snoc hj hr
      · rcases getElem?_set_cases hx with ⟨rfl, rfl⟩ | ⟨hne, hx⟩
        · exact .inr ⟨List.mem_append_right _ (List.mem_singleton_self _),
            Option.not_isSome_iff_eq_none.mp hl, _, hsaves⟩
        · exact (hi.resting j' x hx).join hne
      · rw [serially_skip hF h₀ hr hP (by rw [hi.value]) hl, hi.value]
  | @write j k v y head => exact ((hi.resting j _ head).not_write).elim
  | @spawn j c y head =>
    refine .inl ⟨order, hi.places, fun j' x hx => ?_, hi.value⟩
    rcases getElem?_set_cases hx with ⟨rfl, rfl⟩ | ⟨-, hx⟩
    · exact (hi.resting _ _ head).spawn
    · exact hi.resting j' x hx

section Active

variable {i j : Nat} {k : K}

/-- Another handler loads beside the one at work: it has nothing to save, or there are two copies now. -/
theorem Active.read (hF : ∀ r ∈ rs, Modifies k₀ P shape (F r)) (h₀ : P v₀)
    (hi : Active k₀ P shape rs F v₀ order i st xs) {f : Option V → Script K V C β} (head : xs[j]? = some (.read k f)) :
    (∃ order', Active k₀ P shape rs F v₀ order' i st (xs.set j (f (st.lookup k)))) ∨
      Stuck k₀ P shape tr (xs.set j (f (st.lookup k))) := by
  obtain ⟨x, r, hx, hr, hl, hlast, hs⟩ := hi.here
  have hne : j ≠ i := by
    rintro rfl
    obtain rfl := Option.some.inj (hx.symm.trans head)
    exact hs
  obtain ⟨hj, rfl, r', hr', rfl⟩ := (hi.resting j _ hne head).read
  have hsaves := (hF r' (List.mem_of_getElem? hr')).saves _ hi.within
  have hhere : (xs.set j (F r' (st.lookup k)))[i]? = some x := by rw [List.getElem?_set_ne hne, hx]
  by_cases hl' : (F r' (st.lookup k)).last.isSome = true
  · right
    exact .clash hne.symm hhere (List.getElem?_set_self (List.getElem?_eq_some_iff.mp head).1) ⟨hl, _, hs⟩
      ⟨hl', _, hsaves⟩
  · have hskip := serially_skip hF h₀ hr' hi.within hi.alike hl'
    refine .inl ⟨order ++ [j], hi.places.snoc hj hr', fun j' y hne' hy => ?_, ?_, hi.within, by rw [hskip, hi.alike],
      x, r, hhere, hr, hl, by rw [hskip, hlast], by rw [hskip]; exact hs⟩
    · rcases getElem?_set_cases hy with ⟨rfl, rfl⟩ | ⟨hne, hy⟩
      · exact .inr ⟨List.mem_append_right _ (List.mem_singleton_self _),
          Option.not_isSome_iff_eq_none.mp hl', _, hsaves⟩
      · exact (hi.resting j' y hne' hy).join hne
    · simp [hi.new, hne.symm]

/-- Only the handler at work can save; with its last save it takes its place in the order. -/
theorem Active.write (hi : Active k₀ P shape rs F v₀ order i st xs) {v : V} {y : Script K V C β}
    (head : xs[j]? = some (.write k v y)) :
    Idle k₀ P shape rs F v₀ (order ++ [i]) (st.insert k v) (xs.set j y) ∨
      Active k₀ P shape rs F v₀ order i (st.insert k v) (xs.set j y) := by
  obtain ⟨x, r, hx, hr, -, hlast, hs⟩ := hi.here
  by_cases hne : j = i
  · subst hne
    obtain rfl := Option.some.inj (hx.symm.trans head)
    obtain ⟨rfl, hv, hshape, hy⟩ := hs
    cases hly : y.last with
    | some w =>
      refine .inr ⟨hi.places, fun j' z hne' hz => ?_, hi.new, ?_, ?_, y, r,
        List.getElem?_set_self (List.getElem?_eq_some_iff.mp hx).1, hr, by rw [hly]; rfl, ?_, hy⟩
      · rw [List.getElem?_set_ne (Ne.symm hne')] at hz
        exact hi.resting j' z hne' hz
      · rw [Finmap.lookup_insert]
        exact hv
      · rw [Finmap.lookup_insert]
        exact hshape (by rw [hly]; rfl)
      · rw [← hlast, last, hly, Option.getD_some]
    | none =>
      refine .inl ⟨hi.places.snoc hi.new hr, fun j' z hz => ?_, ?_⟩
      · rcases getElem?_set_cases hz with ⟨rfl, rfl⟩ | ⟨hne', hz⟩
        · exact .inr ⟨List.mem_append_right _ (List.mem_singleton_self _), hly, _, hy⟩
        · exact (hi.resting j' z hne' hz).join hne'
      · rw [pick_snoc hr, serially_snoc, effect, ← hlast, last, hly, Finmap.lookup_insert]
        rfl
  · exact ((hi.resting j _ hne head).not_write).elim

theorem Active.spawn (hi : Active k₀ P shape rs F v₀ order i st xs) {c : C} {y : Script K V C β}
    (head : xs[j]? = some (.spawn c y)) : Active k₀ P shape rs F v₀ order i st (xs.set j y) := by
  obtain ⟨x, r, hx, hr, hl, hlast, hs⟩ := hi.here
  by_cases hne : j = i
  · subst hne
    obtain rfl := Option.some.inj (hx.symm.trans head)
    refine ⟨hi.places, fun j' z hne' hz => ?_, hi.new, hi.within, hi.alike, y, r,
      List.getElem?_set_self (List.getElem?_eq_some_iff.mp hx).1, hr, hl, hlast, hs⟩
    rw [List.getElem?_set_ne (Ne.symm hne')] at hz
    exact hi.resting j' z hne' hz
  · refine ⟨hi.places, fun j' z hne' hz => ?_, hi.new, hi.within, hi.alike, x, r,
      by rw [List.getElem?_set_ne hne, hx], hr, hl, hlast, hs⟩
    rcases getElem?_set_cases hz with ⟨rfl, rfl⟩ | ⟨-, hz⟩
    · exact (hi.resting _ _ hne head).spawn
    · exact hi.resting j' z hne' hz

theorem Active.step (hF : ∀ r ∈ rs, Modifies k₀ P shape (F r)) (h₀ : P v₀)
    (hi : Active k₀ P shape rs F v₀ order i st xs) (h : Moves st xs st' xs' t e) :
    (∃ order', Idle k₀ P shape rs F v₀ order' st' xs') ∨
      (∃ order', Active k₀ P shape rs F v₀ order' i st' xs') ∨ Stuck k₀ P shape (tr ++ [(t, e)]) xs' := by
  cases h with
  | silent hidden => exact .inr (.inl ⟨order, hi⟩)
  | read head => exact .inr (hi.read hF h₀ head)
  | write head =>
    rcases hi.write head with hi' | hi'
    · exact .inl ⟨_, hi'⟩
    · exact .inr (.inl ⟨_, hi'⟩)
  | spawn head => exact .inr (.inl ⟨_, hi.spawn head⟩)

end Active

end Steps

/-- Handlers that have begun are in the order, at work, or stuck. -/
theorem Interleaving.phases {st₀ st : Store K V} {xs : List (Script K V C β)} {tr : Trace K V C}
    (h : Interleaving st₀ (rs.map fun r => .read k₀ (F r)) tr st xs) (hF : ∀ r ∈ rs, Modifies k₀ P shape (F r))
    (h₀ : P (st₀.lookup k₀)) (hv : Validated k₀ tr) :
    (∃ order, Idle k₀ P shape rs F (st₀.lookup k₀) order st xs) ∨
      (∃ order i, Active k₀ P shape rs F (st₀.lookup k₀) order i st xs) ∨ Stuck k₀ P shape tr xs := by
  induction h with
  | nil =>
    refine .inl ⟨[], ⟨List.nodup_nil, by simp⟩, fun i x hx => ?_, rfl⟩
    rw [List.getElem?_map, Option.map_eq_some_iff] at hx
    obtain ⟨r, hr, rfl⟩ := hx
    exact .inl ⟨List.not_mem_nil, r, hr, rfl⟩
  | @snoc tr st st' xs xs' t e _ hm ih =>
    obtain ⟨hv, hup⟩ := along_snoc.mp hv
    rcases ih hv with ⟨order, hi⟩ | ⟨order, i, hi⟩ | hs
    · rcases hi.step hF h₀ hm with hi' | ⟨i, hi'⟩
      · exact .inl hi'
      · exact .inr (.inl ⟨order, i, hi'⟩)
    · rcases hi.step hF h₀ hm with hi' | ⟨order', hi'⟩ | hs
      · exact .inl hi'
      · exact .inr (.inl ⟨order', i, hi'⟩)
      · exact .inr (.inr hs)
    · exact .inr (.inr (hs.step hm hup))

/-- **Validated saves are serializable**: when all handlers are done, the value under the key is that of the handlers
run one at a time in some order. -/
theorem Interleaving.serial {st₀ st : Store K V} {xs : List (Script K V C β)} {tr : Trace K V C}
    (h : Interleaving st₀ (rs.map fun r => .read k₀ (F r)) tr st xs) (hF : ∀ r ∈ rs, Modifies k₀ P shape (F r))
    (h₀ : P (st₀.lookup k₀)) (hv : Validated k₀ tr) (hdone : ∀ x ∈ xs, ∃ b, x = .done b) :
    ∃ rs', rs'.Perm rs ∧ st.lookup k₀ = serially F (st₀.lookup k₀) rs' := by
  rcases h.phases hF h₀ hv with ⟨order, hi⟩ | ⟨order, i, hi⟩ | hs
  · refine ⟨pick rs order, hi.places.perm fun i hlt => ?_, hi.value⟩
    have hlt : i < xs.length := by rw [h.length, List.length_map]; exact hlt
    rcases hi.resting i _ (List.getElem?_eq_getElem hlt) with ⟨-, r, -, hx⟩ | ⟨hi, -⟩
    · obtain ⟨b, hb⟩ := hdone _ (List.getElem_mem hlt)
      rw [hb] at hx
      cases hx
    · exact hi
  · obtain ⟨x, r, hx, -, hl, -⟩ := hi.here
    obtain ⟨b, rfl⟩ := hdone x (List.mem_of_getElem? hx)
    cases hl
  · obtain ⟨x, hx, hne⟩ := hs.unfinished
    obtain ⟨b, rfl⟩ := hdone x hx
    exact absurd rfl (hne b)

end Serial

end Async
