import Seata.Async.Scan

/-!
# Walking through a store that others write to

An iterator finds one key after the other, each of them in the store as it is by then: it has no snapshot.

- `walk_replicate`: over a store that stays as it is, a walk is a scan;
- `walk_reaches`: **a walk does not pass by a key** that is there all the time;
- `length_of_missed`: pages are cut from walks that get longer and longer, and in the meantime no key goes away: **if no
  page shows a key that was there from the first moment on, the last page is full**.
-/

namespace Async

variable {K V : Type} [LinearOrder K]

/-! ## Walks -/

/-- The key comes after the last one that was found. -/
def follows (last : Option K) (k : K) : Bool := last.all fun l => decide (l < k)

theorem follows_some {l k : K} : follows (some l) k = true ↔ l < k := by simp [follows]

theorem follows_trans {last : Option K} {k k' : K} (h : follows last k = true) (hk : k < k') :
    follows last k' = true := by
  cases last with
  | none => rfl
  | some l => exact follows_some.mpr ((follows_some.mp h).trans hk)

variable [DecidableEq K]

/-- The first key after the last one that passes the test, and its value. -/
def next (p : K → Bool) (last : Option K) (st : Store K V) : Option (K × V) :=
  ((sortedKeys st).find? fun k => p k && follows last k).bind fun k => (st.lookup k).map (k, ·)

/-- The keys and values that an iterator finds, each in the store of its moment. -/
def walk (p : K → Bool) : Option K → List (Store K V) → List (K × V)
  | _, [] => []
  | last, st :: sts =>
    match next p last st with
    | none => []
    | some x => x :: walk p (some x.1) sts

section Next

variable {p : K → Bool} {last : Option K} {st : Store K V}

theorem next_eq_some {x : K × V} (h : next p last st = some x) :
    st.lookup x.1 = some x.2 ∧ p x.1 = true ∧ follows last x.1 = true ∧
      ∀ k, (st.lookup k).isSome → p k = true → follows last k = true → x.1 ≤ k := by
  simp only [next, Option.bind_eq_some_iff, Option.map_eq_some_iff] at h
  obtain ⟨k, hfind, v, hv, rfl⟩ := h
  obtain ⟨hk, before, after, hkeys, hbefore⟩ := List.find?_eq_some_iff_append.mp hfind
  rw [Bool.and_eq_true] at hk
  refine ⟨hv, hk.1, hk.2, fun k' hk' hp hfollows => ?_⟩
  have hmem : k' ∈ before ++ k :: after := hkeys ▸ mem_sortedKeys.mpr hk'
  rcases List.mem_append.mp hmem with hm | hm
  · have hno := hbefore k' hm
    simp [hp, hfollows] at hno
  · rcases List.mem_cons.mp hm with rfl | hm
    · exact le_rfl
    · have hsorted := pairwise_sortedKeys st
      rw [hkeys] at hsorted
      exact ((List.pairwise_cons.mp (List.pairwise_append.mp hsorted).2.1).1 k' hm).le

theorem next_eq_none (h : next p last st = none) {k : K} (hk : (st.lookup k).isSome) (hp : p k = true) :
    follows last k = false := by
  by_contra hfollows
  have hfound : ((sortedKeys st).find? fun k => p k && follows last k).isSome :=
    List.find?_isSome.mpr ⟨k, mem_sortedKeys.mpr hk, by simp [hp, hfollows]⟩
  obtain ⟨k', hk'⟩ := Option.isSome_iff_exists.mp hfound
  obtain ⟨v, hv⟩ := Option.isSome_iff_exists.mp (mem_sortedKeys.mp (List.mem_of_find?_eq_some hk'))
  simp [next, hk', hv] at h

end Next

section Walk

variable {p : K → Bool} {last : Option K} {st : Store K V} {sts : List (Store K V)}

/-- What a walk finds was there at its moment. -/
theorem mem_walk {x : K × V} : ∀ {last : Option K} {sts : List (Store K V)}, x ∈ walk p last sts →
    p x.1 = true ∧ follows last x.1 = true ∧ ∃ st ∈ sts, st.lookup x.1 = some x.2
  | _, [], h => by cases h
  | last, st :: sts, h => by
    rw [walk] at h
    split at h
    · cases h
    · rename_i y hy
      obtain ⟨hst, hp, hfollows, -⟩ := next_eq_some hy
      rcases List.mem_cons.mp h with rfl | h
      · exact ⟨hp, hfollows, st, List.mem_cons_self, hst⟩
      · obtain ⟨hpx, hyx, st', hst', hx⟩ := mem_walk h
        exact ⟨hpx, follows_trans hfollows (follows_some.mp hyx), st', List.mem_cons_of_mem _ hst', hx⟩

/-- A walk goes upwards. -/
theorem pairwise_walk : ∀ (last : Option K) (sts : List (Store K V)),
    (walk p last sts).Pairwise fun x y => x.1 < y.1
  | _, [] => .nil
  | last, st :: sts => by
    rw [walk]
    split
    · exact .nil
    · exact (pairwise_walk _ sts).cons fun y hy => follows_some.mp (mem_walk hy).2.1

/-- **A walk does not pass by a key** that is there all the time: it finds it, or ends before it since it has had all
its moments. -/
theorem walk_reaches {x : K} (hp : p x = true) : ∀ (last : Option K) {sts : List (Store K V)},
    follows last x = true → (∀ st ∈ sts, (st.lookup x).isSome) →
      (∃ v, (x, v) ∈ walk p last sts) ∨
        (walk p last sts).length = sts.length ∧ ∀ y ∈ walk p last sts, y.1 < x
  | _, [], _, _ => .inr ⟨rfl, nofun⟩
  | last, st :: sts, hfollows, hthere => by
    have hst := hthere st List.mem_cons_self
    rw [walk]
    split
    · rename_i hnone
      rw [next_eq_none hnone hst hp] at hfollows
      cases hfollows
    · rename_i y hy
      obtain ⟨hlookup, -, -, hfirst⟩ := next_eq_some hy
      rcases (hfirst x hst hp hfollows).lt_or_eq with hlt | heq
      · rcases walk_reaches hp (some y.1) (follows_some.mpr hlt)
          (fun st' hst' => hthere st' (List.mem_cons_of_mem _ hst')) with ⟨v, hv⟩ | ⟨hlen, hbelow⟩
        · exact .inl ⟨v, List.mem_cons_of_mem _ hv⟩
        · refine .inr ⟨by rw [List.length_cons, List.length_cons, hlen], fun z hz => ?_⟩
          rcases List.mem_cons.mp hz with rfl | hz
          · exact hlt
          · exact hbelow z hz
      · exact .inl ⟨y.2, by rw [← heq]; exact List.mem_cons_self⟩

/-- Over a store that stays as it is, a walk finds the first keys that pass the test. -/
theorem map_walk_replicate (st : Store K V) : ∀ (n : Nat) (last : Option K),
    (walk p last (List.replicate n st)).map Prod.snd =
      (((sortedKeys st).filter fun k => p k && follows last k).take n).filterMap fun k => st.lookup k
  | 0, _ => rfl
  | n + 1, last => by
    have hhead := List.head?_filter (p := fun k => p k && follows last k) (l := sortedKeys st)
    rw [List.replicate_succ, walk, next, ← hhead]
    cases hkeys : (sortedKeys st).filter fun k => p k && follows last k with
    | nil => rfl
    | cons k rest =>
      have hmem (k' : K) : k' ∈ k :: rest ↔ k' ∈ sortedKeys st ∧ p k' = true ∧ follows last k' = true := by
        rw [← hkeys, List.mem_filter, Bool.and_eq_true]
      have hsorted := (pairwise_sortedKeys st).filter fun k => p k && follows last k
      rw [hkeys, List.pairwise_cons] at hsorted
      obtain ⟨hk, hp, hfollows⟩ := (hmem k).mp List.mem_cons_self
      obtain ⟨v, hv⟩ := Option.isSome_iff_exists.mp (mem_sortedKeys.mp hk)
      -- after the first key come the others
      have hrest : (sortedKeys st).filter (fun k' => p k' && follows (some k) k') = rest := by
        refine filter_sortedKeys_eq hsorted.2 fun k' => ?_
        rw [Bool.and_eq_true, follows_some, ← mem_sortedKeys]
        constructor
        · intro hk'
          obtain ⟨hthere, hp', -⟩ := (hmem k').mp (List.mem_cons_of_mem _ hk')
          exact ⟨hthere, hp', hsorted.1 k' hk'⟩
        · rintro ⟨hthere, hp', hlt⟩
          have hk' := (hmem k').mpr ⟨hthere, hp', follows_trans hfollows hlt⟩
          exact (List.mem_cons.mp hk').resolve_left hlt.ne'
      simp only [List.head?_cons, Option.bind_some, hv, Option.map_some, List.map_cons, List.take_succ_cons,
        List.filterMap_cons, map_walk_replicate st n, hrest]

/-- **A walk over a store that stays as it is** is a scan. -/
theorem walk_replicate (st : Store K V) (n : Nat) :
    (walk p none (List.replicate n st)).map Prod.snd = scan st p n := by
  rw [map_walk_replicate, scan]
  simp [follows]

end Walk

/-! ## Pages -/

/-- A list of images is the image of a list. -/
theorem exists_map_eq {α β : Type} {f : β → α} {P : β → Prop} : ∀ {xs : List α}, (∀ x ∈ xs, ∃ b, x = f b ∧ P b) →
    ∃ bs : List β, xs = bs.map f ∧ ∀ b ∈ bs, P b
  | [], _ => ⟨[], rfl, nofun⟩
  | x :: xs, h => by
    obtain ⟨b, rfl, hb⟩ := h x List.mem_cons_self
    obtain ⟨bs, rfl, hbs⟩ := exists_map_eq fun x hx => h x (List.mem_cons_of_mem _ hx)
    exact ⟨b :: bs, rfl, List.forall_mem_cons.mpr ⟨hb, hbs⟩⟩

/-- What is in an increasing list above `n` others of its elements comes after the first `n`. -/
theorem mem_drop_of_above {α : Type} [LinearOrder α] {l : List α} (hl : l.Pairwise (· < ·)) {x : α} (hx : x ∈ l)
    {below : List α} (hnodup : below.Nodup) (hbelow : ∀ y ∈ below, y ∈ l ∧ y < x) : x ∈ l.drop below.length := by
  have hsplit := List.take_append_drop below.length l
  rw [← hsplit] at hl hx
  refine (List.mem_append.mp hx).resolve_left fun htake => ?_
  -- otherwise `x` and all that is below it were among the first ones
  have hsub : x :: below ⊆ l.take below.length := by
    rintro y hy
    rcases List.mem_cons.mp hy with rfl | hy
    · exact htake
    · obtain ⟨hyl, hyx⟩ := hbelow y hy
      rw [← hsplit] at hyl
      refine (List.mem_append.mp hyl).resolve_right fun hdrop => ?_
      exact lt_asymm hyx ((List.pairwise_append.mp hl).2.2 x htake y hdrop)
  have hnodup' : (x :: below).Nodup := List.nodup_cons.mpr ⟨fun hm => lt_irrefl x (hbelow x hm).2, hnodup⟩
  have hlen := (hnodup'.subperm hsub).length_le
  rw [List.length_cons, List.length_take] at hlen
  omega

section Pages

variable {p : K → Bool} {moments : Nat → List (Store K V)} {n N : Nat} {x : K}

/-- The `i`-th page: a walk of `i + 1` pages, without the first `i` of them. -/
def pageOf (p : K → Bool) (moments : Nat → List (Store K V)) (n i : Nat) : List (K × V) :=
  (walk p none (moments i)).drop (i * n)

/-- **If no page shows the key, the walks of all pages end before it.** -/
theorem walk_of_missed (hp : p x = true) (hlen : ∀ i ≤ N, (moments i).length = (i + 1) * n)
    (hgrows : ∀ i < N, ∀ st ∈ moments i, ∀ st' ∈ moments (i + 1), ∀ k, (st.lookup k).isSome → (st'.lookup k).isSome)
    (hthere : ∀ i ≤ N, ∀ st ∈ moments i, (st.lookup x).isSome)
    (hmissed : ∀ i ≤ N, ∀ v, (x, v) ∉ pageOf p moments n i) :
    ∀ i ≤ N, (walk p none (moments i)).length = (i + 1) * n ∧ ∀ y ∈ walk p none (moments i), y.1 < x
  | 0, h => by
    rcases walk_reaches hp none rfl (hthere 0 h) with ⟨v, hv⟩ | ⟨hl, hbelow⟩
    · exact absurd (by simpa [pageOf] using hv) (hmissed 0 h v)
    · exact ⟨hl.trans (hlen 0 h), hbelow⟩
  | i + 1, h => by
    obtain ⟨hl, hbelow⟩ := walk_of_missed hp hlen hgrows hthere hmissed i (by omega)
    rcases walk_reaches hp none rfl (hthere (i + 1) h) with ⟨v, hv⟩ | ⟨hl', hbelow'⟩
    · -- the walk before has found as many keys below, and this one finds them all again
      have hmap {j : Nat} : ((walk p none (moments j)).map Prod.fst).Pairwise (· < ·) :=
        List.pairwise_map.mpr (pairwise_walk none (moments j))
      have hdrop : x ∈ ((walk p none (moments (i + 1))).map Prod.fst).drop
          ((walk p none (moments i)).map Prod.fst).length :=
        mem_drop_of_above hmap (List.mem_map_of_mem hv) (hmap.imp ne_of_lt) fun k hk => by
          obtain ⟨y, hy, rfl⟩ := List.mem_map.mp hk
          obtain ⟨hpy, -, st, hst, hlookup⟩ := mem_walk hy
          refine ⟨?_, hbelow y hy⟩
          have hthere' : ∀ st' ∈ moments (i + 1), (st'.lookup y.1).isSome := fun st' hst' =>
            hgrows i (by omega) st hst st' hst' y.1 (by rw [hlookup]; rfl)
          rcases walk_reaches hpy none rfl hthere' with ⟨v', hv'⟩ | ⟨-, hbelow'⟩
          · exact List.mem_map.mpr ⟨_, hv', rfl⟩
          · exact absurd (hbelow' _ hv) (lt_asymm (hbelow y hy))
      rw [List.length_map, hl, ← List.map_drop] at hdrop
      obtain ⟨⟨x', v'⟩, hv', rfl⟩ := List.mem_map.mp hdrop
      exact absurd hv' (hmissed (i + 1) h v')
    · exact ⟨hl'.trans (hlen (i + 1) h), hbelow'⟩

theorem length_of_missed (hp : p x = true) (hlen : ∀ i ≤ N, (moments i).length = (i + 1) * n)
    (hgrows : ∀ i < N, ∀ st ∈ moments i, ∀ st' ∈ moments (i + 1), ∀ k, (st.lookup k).isSome → (st'.lookup k).isSome)
    (hthere : ∀ i ≤ N, ∀ st ∈ moments i, (st.lookup x).isSome)
    (hmissed : ∀ i ≤ N, ∀ v, (x, v) ∉ pageOf p moments n i) : (pageOf p moments n N).length = n := by
  obtain ⟨hl, -⟩ := walk_of_missed hp hlen hgrows hthere hmissed N (Nat.le_refl N)
  rw [pageOf, List.length_drop, hl]
  rw [Nat.succ_mul, Nat.add_sub_cancel_left]

end Pages

end Async
