import Seata.Async.Script

/-!
# Rules for runs

What holds along every interleaving follows from what the scripts of the handlers do one by one.

- `step_moves`: a turn changes the store and the scripts in one of four ways; a run of the pool is an `Interleaving` of
  its scripts (`Run.interleaving`);
- `Script.Guarantees A W S R`: relying on reads within `A`, the script writes within `W`, spawns within `S` and ends
  within `R`; handlers that each keep the store within what all of them rely on can run together
  (`Interleaving.guarantees`), and `Script.Safe P R` is the case of one invariant `P` of the store
  (`Interleaving.safe`);
- `Script.Settles`: the last write of the script to one key is final; then the last write of all is final
  (`Interleaving.settles`);
- `Interleaving.written`: the store is what the puts of the trace make of it.
-/

namespace Async

variable {K V C E α β γ : Type}

/-! ## The scripts of a pool -/

/-- What the handlers of a pool still have to do. -/
def Pool.todos (s : Pool K V C E α) : List (Script K V C (α × Core C E)) := s.procs.map Proc.todo

theorem todos_set {ps : List (Proc K V C E α)} (i : Nat) (p : Proc K V C E α) :
    (ps.set i p).map Proc.todo = (ps.map Proc.todo).set i p.todo := by rw [List.map_set]

theorem todos_set_self {ps : List (Proc K V C E α)} {i : Nat} {p p' : Proc K V C E α} (hp : ps[i]? = some p)
    (h : p'.todo = p.todo) : (ps.set i p').map Proc.todo = ps.map Proc.todo := by
  obtain ⟨hi, rfl⟩ := List.getElem?_eq_some_iff.mp hp
  rw [todos_set, h, ← List.getElem_map Proc.todo (h := by simpa using hi), List.set_getElem_self]

theorem todos_allOk {K V C E α : Type} {s : Pool K V C E (Except E α)} (h : s.AllOk) :
    ∀ x ∈ s.todos, ∃ b, x = .done b ∧ ∃ a, b.1 = .ok a := by
  intro x hx
  obtain ⟨p, hp, rfl⟩ := List.mem_map.mp hx
  obtain ⟨a, ha⟩ := h p hp
  exact ⟨_, by rw [Proc.todo, ha, resolve], a, rfl⟩

section Moves

variable [DecidableEq K]

/-- The effect of a turn on the store and on the scripts. -/
inductive Moves (st : Store K V) (xs : List (Script K V C β)) :
    Store K V → List (Script K V C β) → Turn → Event K V C → Prop
  | silent {t : Turn} {e : Event K V C} (hidden : e.visible = false) : Moves st xs st xs t e
  | read {i : Nat} {k : K} {f : Option V → Script K V C β} (head : xs[i]? = some (.read k f)) :
      Moves st xs st (xs.set i (f (st.lookup k))) (.main i) (.get k (st.lookup k))
  | write {i : Nat} {k : K} {v : V} {x : Script K V C β} (head : xs[i]? = some (.write k v x)) :
      Moves st xs (st.insert k v) (xs.set i x) (.main i) (.put k v)
  | spawn {i : Nat} {c : C} {x : Script K V C β} (head : xs[i]? = some (.spawn c x)) :
      Moves st xs st (xs.set i x) (.main i) (.spawn c)

/-- **All that a turn can do** to the store and to the scripts. -/
theorem step_moves {s s' : Pool K V C E α} {t : Turn} {e : Event K V C} (h : s.step t = some (s', e)) :
    Moves s.store s.todos s'.store s'.todos t e := by
  cases t with
  | main i =>
    obtain ⟨p, p', hp, hm, hps⟩ := step_main h
    have hx : s.todos[i]? = some p.todo := by rw [Pool.todos, List.getElem?_map, hp]; rfl
    have hs' : s'.todos = (s.procs.set i p').map Proc.todo := by rw [Pool.todos, hps]
    generalize hst : s'.store = st' at hm ⊢
    cases hm with
    | silent todo _ event =>
      rw [hs', todos_set_self hp todo]
      exact .silent (by rcases event with rfl | rfl <;> rfl)
    | read before after _ =>
      rw [hs', todos_set, after]
      exact .read (hx.trans (congrArg some before))
    | write before _ =>
      rw [hs', todos_set]
      exact .write (hx.trans (congrArg some before))
    | spawn before _ =>
      rw [hs', todos_set]
      exact .spawn (hx.trans (congrArg some before))
  | task i j =>
    obtain ⟨p, p', hp, ht, hst, hps⟩ := step_task h
    have hs' : s'.todos = s.todos := by rw [Pool.todos, hps, todos_set_self hp ht.todo]; rfl
    rw [hst, hs']
    obtain ⟨_, _, _, _, _, _, _, rfl | ⟨rfl, -⟩ | rfl⟩ := ht <;> exact .silent rfl

theorem Moves.put {st st' : Store K V} {xs xs' : List (Script K V C β)} {t : Turn} {k : K} {v : V}
    (h : Moves st xs st' xs' t (.put k v)) : st' = st.insert k v := by
  cases h with
  | silent hidden => cases hidden
  | write _ => rfl

/-- Any interleaving of scripts, with its turns and events in order. -/
inductive Interleaving (st₀ : Store K V) (xs₀ : List (Script K V C β)) :
    Trace K V C → Store K V → List (Script K V C β) → Prop
  | nil : Interleaving st₀ xs₀ [] st₀ xs₀
  | snoc {tr : Trace K V C} {st st' : Store K V} {xs xs' : List (Script K V C β)} {t : Turn} {e : Event K V C} :
      Interleaving st₀ xs₀ tr st xs → Moves st xs st' xs' t e → Interleaving st₀ xs₀ (tr ++ [(t, e)]) st' xs'

/-- **A run of a pool is an interleaving of its scripts.** -/
theorem Run.interleaving {s₀ s : Pool K V C E α} {tr : Trace K V C} (h : Run s₀ tr s) :
    Interleaving s₀.store s₀.todos tr s.store s.todos := by
  induction h with
  | nil => exact .nil
  | snoc _ hs ih => exact .snoc ih (step_moves hs)

/-- A script that is done stays so. -/
theorem Interleaving.done {st₀ st : Store K V} {xs₀ xs : List (Script K V C β)} {tr : Trace K V C} {i : Nat} {b : β}
    (h : Interleaving st₀ xs₀ tr st xs) (hi : xs₀[i]? = some (.done b)) : xs[i]? = some (.done b) := by
  induction h with
  | nil => exact hi
  | @snoc tr st st' xs xs' t e _ hm ih =>
    have hset {j : Nat} {x y : Script K V C β} (head : xs[j]? = some x) (hx : ∀ b, x ≠ .done b) :
        (xs.set j y)[i]? = some (.done b) := by
      have hj : j ≠ i := by
        rintro rfl
        exact hx b (Option.some.inj (head.symm.trans ih))
      rw [List.getElem?_set_ne hj, ih]
    cases hm with
    | silent _ => exact ih
    | read head => exact hset head (by simp)
    | write head => exact hset head (by simp)
    | spawn head => exact hset head (by simp)

theorem Interleaving.length {st₀ st : Store K V} {xs₀ xs : List (Script K V C β)} {tr : Trace K V C}
    (h : Interleaving st₀ xs₀ tr st xs) : xs.length = xs₀.length := by
  induction h with
  | nil => rfl
  | snoc _ hm ih => cases hm <;> simp [ih]

end Moves

/-- A place of a list after one of its places was set. -/
theorem getElem?_set_cases {α : Type} {l : List α} {i j : Nat} {a x : α} (h : (l.set i a)[j]? = some x) :
    (j = i ∧ x = a) ∨ (j ≠ i ∧ l[j]? = some x) := by
  by_cases hij : j = i
  · subst hij
    have hl : j < (l.set j a).length := (List.getElem?_eq_some_iff.mp h).1
    rw [List.getElem?_set_self (by simpa using hl)] at h
    exact .inl ⟨rfl, (Option.some.inj h).symm⟩
  · rw [List.getElem?_set_ne (Ne.symm hij)] at h
    exact .inr ⟨hij, h⟩

/-- A member of a list after one of its places was set. -/
theorem forall_mem_set {P : β → Prop} {xs : List β} {i : Nat} {a : β} (hxs : ∀ x ∈ xs, P x) (ha : P a) :
    ∀ x ∈ xs.set i a, P x := by
  intro x hx
  rcases List.mem_or_eq_of_mem_set hx with hx | rfl
  · exact hxs x hx
  · exact ha

/-! ## Guarantees -/

namespace Script

/-- Relying on reads within `A`, the script writes within `W`, spawns within `S` and ends within `R`. -/
def Guarantees (A : K → Option V → Prop) (W : K → V → Prop) (S : C → Prop) (R : β → Prop) : Script K V C β → Prop
  | .done b => R b
  | .read k f => ∀ v, A k v → (f v).Guarantees A W S R
  | .write k v x => W k v ∧ x.Guarantees A W S R
  | .spawn c x => S c ∧ x.Guarantees A W S R

/-- Whatever it reads within `P`, the script writes within `P` and ends within `R`. -/
abbrev Safe (P : K → Option V → Prop) (R : β → Prop) (x : Script K V C β) : Prop :=
  x.Guarantees P (fun k v => P k (some v)) (fun _ => True) R

variable {P A : K → Option V → Prop} {W : K → V → Prop} {S : C → Prop}

theorem Guarantees.mono {A' : K → Option V → Prop} {W' : K → V → Prop} {S' : C → Prop} {R R' : β → Prop}
    (hA : ∀ k v, A' k v → A k v) (hW : ∀ k v, W k v → W' k v) (hS : ∀ c, S c → S' c) (hR : ∀ b, R b → R' b) :
    ∀ {x : Script K V C β}, x.Guarantees A W S R → x.Guarantees A' W' S' R'
  | .done b, h => hR b h
  | .read k _, h => fun v hv => (h v (hA k v hv)).mono hA hW hS hR
  | .write k v _, h => ⟨hW k v h.1, h.2.mono hA hW hS hR⟩
  | .spawn c _, h => ⟨hS c h.1, h.2.mono hA hW hS hR⟩

theorem Guarantees.bind {R : β → Prop} {R' : γ → Prop} {f : β → Script K V C γ}
    (hf : ∀ b, R b → (f b).Guarantees A W S R') :
    ∀ {x : Script K V C β}, x.Guarantees A W S R → (x.bind f).Guarantees A W S R'
  | .done b, h => hf b h
  | .read _ _, h => fun v hv => Guarantees.bind hf (h v hv)
  | .write _ _ _, h => ⟨h.1, Guarantees.bind hf h.2⟩
  | .spawn _ _, h => ⟨h.1, Guarantees.bind hf h.2⟩

/-- Go on after a success. -/
theorem Guarantees.andThen {R : Except E α × Core C E → Prop} {R' : Except E β × Core C E → Prop}
    {x : Script K V C (Except E α × Core C E)} {f : α → Core C E → Script K V C (Except E β × Core C E)}
    (hx : x.Guarantees A W S R) (hok : ∀ a c, R (.ok a, c) → (f a c).Guarantees A W S R')
    (he : ∀ e c, R (.error e, c) → R' (.error e, c)) : (x.andThen f).Guarantees A W S R' := by
  apply hx.bind
  rintro ⟨r, c⟩ hr
  cases r with
  | error e => exact he e c hr
  | ok a => exact hok a c hr

section Try

variable {R : Except E α × Core C E → Prop} {c : Core C E} {k : K}

theorem Guarantees.tryRead {f : Option V → Core C E → Script K V C (Except E α × Core C E)}
    (hf : ∀ v, A k v → (f v c.io).Guarantees A W S R) (he : ∀ e, R (.error e, c.io)) :
    (Script.tryRead c k f).Guarantees A W S R := by
  unfold Script.tryRead
  split
  · exact he _
  · exact hf

theorem Guarantees.tryWrite {v : V} {f : Core C E → Script K V C (Except E α × Core C E)} (hv : W k v)
    (hf : (f c.io).Guarantees A W S R) (he : ∀ e, R (.error e, c.io)) :
    (Script.tryWrite c k v f).Guarantees A W S R := by
  unfold Script.tryWrite
  split
  · exact he _
  · exact ⟨hv, hf⟩

theorem Guarantees.spawnAll {R : β → Prop} {x : Script K V C β} (h : x.Guarantees A W S R) :
    ∀ {xs : List C}, (∀ c ∈ xs, S c) → (Script.spawnAll xs x).Guarantees A W S R
  | [], _ => h
  | c :: _, hS => ⟨hS c List.mem_cons_self, Guarantees.spawnAll h fun c' hc' => hS c' (List.mem_cons_of_mem _ hc')⟩

end Try

/-- Whatever it reads within `P`, the last value that the script writes to `k₀` satisfies `Q`; `d` is what is known when
it writes nothing more. Only an ending in `ok` counts. -/
def Settles (P : K → Option V → Prop) (ok : β → Prop) (k₀ : K) (Q : V → Prop) : Script K V C β → Prop → Prop
  | .done b, d => ok b → d
  | .read k f, d => ∀ v, P k v → (f v).Settles P ok k₀ Q d
  | .write k v x, d => (k = k₀ → x.Settles P ok k₀ Q (Q v)) ∧ (k ≠ k₀ → x.Settles P ok k₀ Q d)
  | .spawn _ x, d => x.Settles P ok k₀ Q d

section Settles

variable {ok : β → Prop} {k₀ : K} {Q : V → Prop} {d d' : Prop}

theorem Settles.mono (hd : d → d') : ∀ {x : Script K V C β}, x.Settles P ok k₀ Q d → x.Settles P ok k₀ Q d'
  | .done _, h => fun hb => hd (h hb)
  | .read _ _, h => fun v hv => (h v hv).mono hd
  | .write _ _ _, h => ⟨h.1, fun hk => (h.2 hk).mono hd⟩
  | .spawn _ x, h => Settles.mono (x := x) hd h

theorem Settles.spawnAll {x : Script K V C β} (h : x.Settles P ok k₀ Q d) :
    ∀ cs : List C, (Script.spawnAll cs x).Settles P ok k₀ Q d
  | [] => h
  | _ :: cs => Settles.spawnAll h cs

end Settles

section Try

variable {ok : Except E α × Core C E → Prop} {k₀ : K} {Q : V → Prop} {d : Prop} {c : Core C E}

theorem Settles.tryRead {k : K} {f : Option V → Core C E → Script K V C (Except E α × Core C E)}
    (hf : ∀ v, P k v → (f v c.io).Settles P ok k₀ Q d) (he : ∀ e, ¬ ok (.error e, c.io)) :
    (Script.tryRead c k f).Settles P ok k₀ Q d := by
  unfold Script.tryRead
  split
  · exact fun h => absurd h (he _)
  · exact hf

/-- A write to the key itself: from here on it counts. -/
theorem Settles.tryWrite {k : K} {v : V} {f : Core C E → Script K V C (Except E α × Core C E)}
    (hf : (f c.io).Settles P ok k Q (Q v)) (he : ∀ e, ¬ ok (.error e, c.io)) :
    (Script.tryWrite c k v f).Settles P ok k Q d := by
  unfold Script.tryWrite
  split
  · exact fun h => absurd h (he _)
  · exact ⟨fun _ => hf, fun h => absurd rfl h⟩

end Try

variable [DecidableEq K]

theorem lookup_insert_ite (st : Store K V) (k k' : K) (v : V) :
    (st.insert k v).lookup k' = if k' = k then some v else st.lookup k' := by
  split
  · subst k'
    exact Finmap.lookup_insert st
  · exact Finmap.lookup_insert_of_ne st ‹_›

/-- A write of what is there. -/
theorem insert_self {st : Store K V} {k : K} {v : V} (h : st.lookup k = some v) : st.insert k v = st := by
  apply Finmap.ext_lookup
  intro k'
  rw [lookup_insert_ite]
  split
  · subst k'
    exact h.symm
  · rfl

/-- A write within `P` leaves the store within `P`. -/
theorem lookup_insert_of {st : Store K V} (h : ∀ k, P k (st.lookup k)) {k : K} {v : V} (hv : P k (some v)) (k' : K) :
    P k' ((st.insert k v).lookup k') := by
  rw [lookup_insert_ite]
  split
  · subst k'
    exact hv
  · exact h k'

/-- **A safe script alone.** -/
theorem Guarantees.exec {R : β → Prop} :
    ∀ {x : Script K V C β} {st : Store K V}, x.Safe P R → (∀ k, P k (st.lookup k)) →
    (∀ k, P k ((x.exec st).2.2.lookup k)) ∧ R (x.exec st).2.1 ∧ ∀ k v, .put k v ∈ (x.exec st).1 → P k (some v)
  | .done b, st, h, hst => ⟨hst, h, by simp⟩
  | .read k f, st, h, hst => by
    obtain ⟨h₁, h₂, h₃⟩ := (h _ (hst k)).exec hst
    exact ⟨h₁, h₂, fun k v hm => h₃ k v (by simpa using hm)⟩
  | .write k v x, st, h, hst => by
    obtain ⟨h₁, h₂, h₃⟩ := h.2.exec (lookup_insert_of hst h.1)
    refine ⟨h₁, h₂, fun k' v' hm => ?_⟩
    simp only [exec_write, List.mem_cons, Event.put.injEq] at hm
    rcases hm with ⟨rfl, rfl⟩ | hm
    · exact h.1
    · exact h₃ k' v' hm
  | .spawn c x, st, h, hst => by
    obtain ⟨h₁, h₂, h₃⟩ := h.2.exec hst
    exact ⟨h₁, h₂, fun k v hm => h₃ k v (by simpa using hm)⟩

end Script

/-! ## Rules for interleavings -/

section Rules

variable [DecidableEq K] {P : K → Option V → Prop} {st₀ st : Store K V} {xs₀ xs : List (Script K V C β)}
  {tr : Trace K V C}

omit [DecidableEq K] in
theorem mem_snoc {x y : Turn × Event K V C} (h : x ∈ tr ++ [y]) : x ∈ tr ∨ x = y := by
  simpa using h

section Guarantees

variable {A : K → Option V → Prop} {W : Nat → K → V → Prop} {S : Nat → C → Prop} {R : Nat → β → Prop}

/-- A turn keeps the guarantees of all handlers, if the store stays within what they rely on. -/
theorem Moves.guarantees {st' : Store K V} {xs' : List (Script K V C β)} {t : Turn} {e : Event K V C}
    (hm : Moves st xs st' xs' t e) (hst : ∀ k, A k (st.lookup k))
    (hxs : ∀ i, ∀ x : Script K V C β, xs[i]? = some x → x.Guarantees A (W i) (S i) (R i))
    (hW : ∀ k v, e = .put k v → W t.handler k v → A k (some v)) :
    (∀ k, A k (st'.lookup k)) ∧ (∀ i, ∀ x : Script K V C β, xs'[i]? = some x → x.Guarantees A (W i) (S i) (R i)) ∧
      (∀ k v, e = .put k v → W t.handler k v) ∧ ∀ c, e = .spawn c → S t.handler c := by
  have hset {i : Nat} {y : Script K V C β} (hy : y.Guarantees A (W i) (S i) (R i)) :
      ∀ j, ∀ x : Script K V C β, (xs.set i y)[j]? = some x → x.Guarantees A (W j) (S j) (R j) := by
    intro j x hx
    rcases getElem?_set_cases hx with ⟨rfl, rfl⟩ | ⟨-, hx⟩
    · exact hy
    · exact hxs j x hx
  cases hm with
  | silent hidden =>
    refine ⟨hst, hxs, fun k v he => ?_, fun c he => ?_⟩ <;> subst he <;> cases hidden
  | read head => exact ⟨hst, hset (hxs _ _ head _ (hst _)), by simp, by simp⟩
  | write head =>
    have hx := hxs _ _ head
    refine ⟨Script.lookup_insert_of hst (hW _ _ rfl hx.1), hset hx.2, fun k' v' he => ?_, by simp⟩
    cases he
    exact hx.1
  | spawn head =>
    have hx := hxs _ _ head
    refine ⟨hst, hset hx.2, by simp, fun c' he => ?_⟩
    cases he
    exact hx.1

/-- **Rely and guarantee**: if what the handlers guarantee of the puts that they make keeps the store within `A`, they
can rely on `A`. Every handler has its own guarantees. -/
theorem Interleaving.guarantees (h : Interleaving st₀ xs₀ tr st xs) (hst : ∀ k, A k (st₀.lookup k))
    (hxs : ∀ i, ∀ x : Script K V C β, xs₀[i]? = some x → x.Guarantees A (W i) (S i) (R i))
    (hW : ∀ t k v, (t, .put k v) ∈ tr → W t.handler k v → A k (some v)) :
    (∀ k, A k (st.lookup k)) ∧ (∀ i, ∀ x : Script K V C β, xs[i]? = some x → x.Guarantees A (W i) (S i) (R i)) ∧
      (∀ t k v, (t, .put k v) ∈ tr → W t.handler k v) ∧ ∀ t c, (t, .spawn c) ∈ tr → S t.handler c := by
  induction h with
  | nil => exact ⟨hst, hxs, by simp, by simp⟩
  | @snoc tr st st' xs xs' t e _ hm ih =>
    obtain ⟨hst, hxs, hputs, hspawns⟩ := ih fun t k v hp => hW t k v (List.mem_append_left _ hp)
    obtain ⟨hst', hxs', hput, hspawn⟩ := hm.guarantees hst hxs fun k v he => hW t k v (by simp [he])
    refine ⟨hst', hxs', fun t' k v hp => ?_, fun t' c hp => ?_⟩
    · rcases mem_snoc hp with hp | hp
      · exact hputs t' k v hp
      · cases hp
        exact hput k v rfl
    · rcases mem_snoc hp with hp | hp
      · exact hspawns t' c hp
      · cases hp
        exact hspawn c rfl

end Guarantees

/-- **Safe scripts are safe together**, in every interleaving. -/
theorem Interleaving.safe {R : β → Prop} (h : Interleaving st₀ xs₀ tr st xs) (hst : ∀ k, P k (st₀.lookup k))
    (hxs : ∀ x ∈ xs₀, x.Safe P R) :
    (∀ k, P k (st.lookup k)) ∧ (∀ x ∈ xs, x.Safe P R) ∧ ∀ t k v, (t, .put k v) ∈ tr → P k (some v) := by
  obtain ⟨hst', hxs', hputs, -⟩ := h.guarantees (W := fun _ k v => P k (some v)) (S := fun _ _ => True)
    (R := fun _ => R) hst (fun i x hx => hxs x (List.mem_of_getElem? hx)) fun t k v _ hv => hv
  refine ⟨hst', fun x hx => ?_, hputs⟩
  obtain ⟨i, hi⟩ := List.getElem?_of_mem hx
  exact hxs' i x hi

/-- **A handler that has not looked at `k₀` yet** can still rely on anything about it: it has kept its guarantees. -/
theorem Interleaving.unread {A : K → Option V → Prop} {W : K → V → Prop} {S : C → Prop} {R : β → Prop} {k₀ : K}
    (h : Interleaving st₀ xs₀ tr st xs) (hst : ∀ k, P k (st₀.lookup k)) (hsafe : ∀ x ∈ xs₀, x.Safe P fun _ => True)
    (hA : ∀ k v, k ≠ k₀ → P k v → A k v) {i : Nat} {x₀ : Script K V C β} (hi : xs₀[i]? = some x₀)
    (hx₀ : x₀.Guarantees A W S R) :
    (∃ v, (.main i, .get k₀ v) ∈ tr) ∨
      (∃ x, xs[i]? = some x ∧ x.Guarantees A W S R) ∧ ∀ c, (.main i, .spawn c) ∈ tr → S c := by
  induction h with
  | nil => exact .inr ⟨⟨x₀, hi, hx₀⟩, by simp⟩
  | @snoc tr st st' xs xs' t e hrun hm ih =>
    rcases ih with ⟨v, hv⟩ | ⟨⟨x, hx, hg⟩, hspawns⟩
    · exact .inl ⟨v, List.mem_append_left _ hv⟩
    have hP := (hrun.safe hst hsafe).1
    have hlt := (List.getElem?_eq_some_iff.mp hx).1
    have hold {c : C} (hc : (Turn.main i, Event.spawn c) ∈ tr ++ [(t, e)]) (hne : (t, e) ≠ (.main i, .spawn c)) : S c :=
      (mem_snoc hc).elim (hspawns c) fun he => absurd he.symm hne
    cases hm with
    | silent hidden =>
      refine .inr ⟨⟨x, hx, hg⟩, fun c hc => hold hc ?_⟩
      rintro ⟨⟩
      cases hidden
    | @read j k f head =>
      by_cases hj : j = i
      · subst hj
        obtain rfl := Option.some.inj (hx.symm.trans head)
        by_cases hk : k = k₀
        · subst hk
          exact .inl ⟨_, List.mem_append_right _ (List.mem_singleton_self _)⟩
        · exact .inr ⟨⟨_, List.getElem?_set_self hlt, hg _ (hA k _ hk (hP k))⟩, fun c hc => hold hc (by simp)⟩
      · exact .inr ⟨⟨x, by rw [List.getElem?_set_ne hj, hx], hg⟩, fun c hc => hold hc (by simp)⟩
    | @write j k v y head =>
      by_cases hj : j = i
      · subst hj
        obtain rfl := Option.some.inj (hx.symm.trans head)
        exact .inr ⟨⟨y, List.getElem?_set_self hlt, hg.2⟩, fun c hc => hold hc (by simp)⟩
      · exact .inr ⟨⟨x, by rw [List.getElem?_set_ne hj, hx], hg⟩, fun c hc => hold hc (by simp)⟩
    | @spawn j c y head =>
      by_cases hj : j = i
      · subst hj
        obtain rfl := Option.some.inj (hx.symm.trans head)
        refine .inr ⟨⟨y, List.getElem?_set_self hlt, hg.2⟩, fun c' hc => ?_⟩
        rcases mem_snoc hc with hc | hc
        · exact hspawns c' hc
        · cases hc
          exact hg.1
      · refine .inr ⟨⟨x, by rw [List.getElem?_set_ne hj, hx], hg⟩, fun c' hc => hold hc ?_⟩
        simp [hj]

/-- **The last write of all is final** when the last write of each script is, and one of them does write. -/
theorem Interleaving.settles {ok : β → Prop} {k₀ : K} {Q : V → Prop} (h : Interleaving st₀ xs₀ tr st xs)
    (hst : ∀ k, P k (st₀.lookup k)) (hsafe : ∀ x ∈ xs₀, x.Safe P fun _ => True)
    (hall : ∀ x ∈ xs₀, x.Settles P ok k₀ Q True) (hone : ∃ x ∈ xs₀, x.Settles P ok k₀ Q False) :
    (∀ x ∈ xs, x.Settles P ok k₀ Q True) ∧
      ∃ (i : Nat) (x : Script K V C β), xs[i]? = some x ∧ x.Settles P ok k₀ Q (∃ v, st.lookup k₀ = some v ∧ Q v) := by
  induction h with
  | nil =>
    obtain ⟨x, hx, h⟩ := hone
    obtain ⟨i, hi⟩ := List.getElem?_of_mem hx
    exact ⟨hall, i, x, hi, h.mono False.elim⟩
  | @snoc tr st st' xs xs' t e hrun hm ih =>
    obtain ⟨hall, i, x, hi, hx⟩ := ih
    have hP := (hrun.safe hst hsafe).1
    cases hm with
    | silent hidden => exact ⟨hall, i, x, hi, hx⟩
    | @read j k f head =>
      have hj := hall _ (List.mem_of_getElem? head)
      refine ⟨forall_mem_set hall (hj _ (hP _)), i, ?_⟩
      by_cases hij : j = i
      · subst hij
        obtain rfl : Script.read k f = x := Option.some.inj (head.symm.trans hi)
        exact ⟨_, List.getElem?_set_self (List.getElem?_eq_some_iff.mp head).1, hx _ (hP _)⟩
      · exact ⟨x, by rw [List.getElem?_set_ne hij, hi], hx⟩
    | @write j k v y head =>
      have hj := hall _ (List.mem_of_getElem? head)
      have hset : (xs.set j y)[j]? = some y := List.getElem?_set_self (List.getElem?_eq_some_iff.mp head).1
      by_cases hk : k = k₀
      · subst hk
        refine ⟨forall_mem_set hall ((hj.1 rfl).mono fun _ => trivial), j, y, hset, (hj.1 rfl).mono fun hv => ?_⟩
        exact ⟨v, Finmap.lookup_insert st, hv⟩
      · rw [Finmap.lookup_insert_of_ne st (Ne.symm hk)]
        refine ⟨forall_mem_set hall (hj.2 hk), i, ?_⟩
        by_cases hij : j = i
        · subst hij
          obtain rfl : Script.write k v y = x := Option.some.inj (head.symm.trans hi)
          exact ⟨y, hset, hx.2 hk⟩
        · exact ⟨x, by rw [List.getElem?_set_ne hij, hi], hx⟩
    | @spawn j c y head =>
      have hj := hall _ (List.mem_of_getElem? head)
      refine ⟨forall_mem_set hall hj, i, ?_⟩
      by_cases hij : j = i
      · subst hij
        obtain rfl : Script.spawn c y = x := Option.some.inj (head.symm.trans hi)
        exact ⟨y, List.getElem?_set_self (List.getElem?_eq_some_iff.mp head).1, hx⟩
      · exact ⟨x, by rw [List.getElem?_set_ne hij, hi], hx⟩

/-- When all scripts have ended in `ok`, the value under `k₀` is a final one. -/
theorem Interleaving.settled {ok : β → Prop} {k₀ : K} {Q : V → Prop} (h : Interleaving st₀ xs₀ tr st xs)
    (hst : ∀ k, P k (st₀.lookup k)) (hsafe : ∀ x ∈ xs₀, x.Safe P fun _ => True)
    (hall : ∀ x ∈ xs₀, x.Settles P ok k₀ Q True) (hone : ∃ x ∈ xs₀, x.Settles P ok k₀ Q False)
    (hdone : ∀ x ∈ xs, ∃ b, x = .done b ∧ ok b) : ∃ v, st.lookup k₀ = some v ∧ Q v := by
  obtain ⟨-, i, x, hi, hx⟩ := h.settles hst hsafe hall hone
  obtain ⟨b, rfl, hb⟩ := hdone x (List.mem_of_getElem? hi)
  exact hx hb

end Rules

/-! ## The puts of a trace -/

def Event.put? : Event K V C → Option (K × V)
  | .put k v => some (k, v)
  | _ => none

/-- What was put, in order. -/
def puts (es : List (Event K V C)) : List (K × V) := es.filterMap Event.put?

theorem puts_append (es es' : List (Event K V C)) : puts (es ++ es') = puts es ++ puts es' := List.filterMap_append

theorem puts_visibles : ∀ es : List (Event K V C), puts (visibles es) = puts es
  | [] => rfl
  | e :: es => by
    cases e <;> simp [puts, visibles, Event.visible, Event.put?, List.filter_cons] <;> exact puts_visibles es

@[simp] theorem puts_nil : puts ([] : List (Event K V C)) = [] := rfl
@[simp] theorem puts_put (k : K) (v : V) (es : List (Event K V C)) : puts (.put k v :: es) = (k, v) :: puts es := rfl
@[simp] theorem puts_get (k : K) (v : Option V) (es : List (Event K V C)) : puts (.get k v :: es) = puts es := rfl
@[simp] theorem puts_spawns (cs : List C) : puts (cs.map .spawn : List (Event K V C)) = [] := by
  induction cs with
  | nil => rfl
  | cons c cs ih => exact ih

def Event.spawn? : Event K V C → Option C
  | .spawn c => some c
  | _ => none

/-- The calls that were spawned, in order. -/
def spawns (es : List (Event K V C)) : List C := es.filterMap Event.spawn?

theorem mem_spawns {es : List (Event K V C)} {c : C} : c ∈ spawns es ↔ .spawn c ∈ es := by
  simp only [spawns, List.mem_filterMap]
  constructor
  · rintro ⟨e, he, hp⟩
    cases e <;> simp only [Event.spawn?, reduceCtorEq, Option.some.injEq] at hp
    exact hp ▸ he
  · exact fun h => ⟨_, h, rfl⟩

theorem spawns_append (es es' : List (Event K V C)) : spawns (es ++ es') = spawns es ++ spawns es' :=
  List.filterMap_append

@[simp] theorem spawns_nil : spawns ([] : List (Event K V C)) = [] := rfl
@[simp] theorem spawns_put (k : K) (v : V) (es : List (Event K V C)) : spawns (.put k v :: es) = spawns es := rfl
@[simp] theorem spawns_get (k : K) (v : Option V) (es : List (Event K V C)) : spawns (.get k v :: es) = spawns es := rfl
@[simp] theorem spawns_spawns (cs : List C) : spawns (cs.map .spawn : List (Event K V C)) = cs := by
  induction cs with
  | nil => rfl
  | cons c cs ih => exact congrArg (c :: ·) ih

theorem spawns_visibles : ∀ es : List (Event K V C), spawns (visibles es) = spawns es
  | [] => rfl
  | e :: es => by
    cases e <;> simp [spawns, visibles, Event.visible, Event.spawn?, List.filter_cons] <;> exact spawns_visibles es

section Written

variable [DecidableEq K]

/-- The store after puts. -/
def written (st : Store K V) (ps : List (K × V)) : Store K V := ps.foldl (fun st p => st.insert p.1 p.2) st

theorem written_append (st : Store K V) (ps qs : List (K × V)) : written st (ps ++ qs) = written (written st ps) qs :=
  List.foldl_append

/-- **The store is what the puts of the trace make of it.** -/
theorem Interleaving.written {st₀ st : Store K V} {xs₀ xs : List (Script K V C β)} {tr : Trace K V C}
    (h : Interleaving st₀ xs₀ tr st xs) : st = written st₀ (puts (tr.map Prod.snd)) := by
  induction h with
  | nil => rfl
  | @snoc tr st st' xs xs' t e _ hm ih =>
    rw [List.map_append, puts_append, written_append, ← ih]
    cases hm with
    | @silent t e hidden => cases e <;> first | rfl | cases hidden
    | _ => rfl

theorem Script.exec_written : ∀ (x : Script K V C β) (st : Store K V),
    (x.exec st).2.2 = Async.written st (puts (x.exec st).1)
  | .done _, _ => rfl
  | .read k f, st => by
    rw [exec_read, puts_get]
    exact exec_written (f _) st
  | .write k v x, st => by
    rw [exec_write, puts_put]
    exact exec_written x (st.insert k v)
  | .spawn c x, st => by
    rw [exec_spawn]
    exact exec_written x st

/-- What a get and the rest put. -/
theorem mem_puts_tryRead {c : Core C E} {k : K} {f : Option V → Core C E → Script K V C (Except E α × Core C E)}
    {st : Store K V} {q : K × V} : q ∈ puts ((Script.tryRead c k f).exec st).1 ↔
      c.env.fault c.ios = none ∧ q ∈ puts ((f (st.lookup k) c.io).exec st).1 := by
  unfold Script.tryRead
  cases c.env.fault c.ios with
  | some e => simp
  | none => simp [Script.exec_read]

/-- What a put and the rest put. -/
theorem mem_puts_tryWrite {c : Core C E} {k : K} {v : V} {f : Core C E → Script K V C (Except E α × Core C E)}
    {st : Store K V} {q : K × V} : q ∈ puts ((Script.tryWrite c k v f).exec st).1 ↔
      c.env.fault c.ios = none ∧ (q = (k, v) ∨ q ∈ puts ((f c.io).exec (st.insert k v)).1) := by
  unfold Script.tryWrite
  cases c.env.fault c.ios with
  | some e => simp
  | none => simp [Script.exec_write]

/-- What is spawned behind a get. -/
theorem mem_spawns_tryRead {c : Core C E} {k : K} {f : Option V → Core C E → Script K V C (Except E α × Core C E)}
    {st : Store K V} {x : C} (h : x ∈ spawns ((Script.tryRead c k f).exec st).1) :
    x ∈ spawns ((f (st.lookup k) c.io).exec st).1 := by
  unfold Script.tryRead at h
  split at h
  · cases h
  · exact h

/-- What is spawned behind a put. -/
theorem mem_spawns_tryWrite {c : Core C E} {k : K} {v : V} {f : Core C E → Script K V C (Except E α × Core C E)}
    {st : Store K V} {x : C} (h : x ∈ spawns ((Script.tryWrite c k v f).exec st).1) :
    x ∈ spawns ((f c.io).exec (st.insert k v)).1 := by
  unfold Script.tryWrite at h
  split at h
  · cases h
  · exact h

/-- What is in the store after puts was there before, or was put. -/
theorem lookup_written {k : K} {v : V} : ∀ {ps : List (K × V)} {st : Store K V},
    (written st ps).lookup k = some v → (k, v) ∈ ps ∨ st.lookup k = some v
  | [], _, h => .inr h
  | (k', v') :: ps, st, h => by
    have h : (written (st.insert k' v') ps).lookup k = some v := h
    rcases lookup_written h with hm | hl
    · exact .inl (List.mem_cons_of_mem _ hm)
    · rw [Script.lookup_insert_ite] at hl
      split at hl
      · subst k
        cases hl
        exact .inl List.mem_cons_self
      · exact .inr hl

/-- A key that is in the store stays there. -/
theorem isSome_written {k : K} : ∀ {ps : List (K × V)} {st : Store K V},
    (st.lookup k).isSome → ((written st ps).lookup k).isSome
  | [], _, h => h
  | (k', v') :: ps, st, h => by
    have h' : ((st.insert k' v').lookup k).isSome := by
      rw [Script.lookup_insert_ite]
      split
      · rfl
      · exact h
    show ((written (st.insert k' v') ps).lookup k).isSome
    exact isSome_written h'

/-- A key that was put is in the store. -/
theorem isSome_of_mem_written {k : K} {v : V} : ∀ {ps : List (K × V)} {st : Store K V}, (k, v) ∈ ps →
    ((written st ps).lookup k).isSome
  | p :: ps, st, h => by
    show ((written (st.insert p.1 p.2) ps).lookup k).isSome
    rcases List.mem_cons.mp h with rfl | h
    · apply isSome_written
      rw [Finmap.lookup_insert]
      rfl
    · exact isSome_of_mem_written h

/-- **What a handler alone has put** is an initial part of what its script puts. -/
theorem run_alone_puts {st : Store K V} {p : Prog K V C E α} {e : Env C E} {tr : Trace K V C} {s : Pool K V C E α}
    (h : Run (Pool.init st [(p, e)]) tr s) :
    puts (tr.map Prod.snd) <+: puts ((resolve p (.init e)).exec st).1 := by
  obtain ⟨q, -, hx⟩ := run_alone h
  rw [hx, puts_append, puts_visibles]
  exact List.prefix_append _ _

/-- **A handler alone that has returned** has done its script. -/
theorem run_alone_complete {st : Store K V} {p : Prog K V C E (Except E α)} {e : Env C E} {tr : Trace K V C}
    {s : Pool K V C E (Except E α)} (h : Run (Pool.init st [(p, e)]) tr s) (hok : s.AllOk) :
    ∃ a c, (resolve p (.init e)).exec st = (visibles (tr.map Prod.snd), (.ok a, c), s.store) := by
  obtain ⟨q, hq, hx⟩ := run_alone h
  obtain ⟨a, ha⟩ := hok q (by rw [hq]; exact List.mem_singleton_self q)
  refine ⟨a, q.loc.core, ?_⟩
  rw [hx, Proc.todo, ha, resolve, Script.exec_done, List.append_nil]

/-- Alone on the store, the script puts `ps` and spawns `cs`; an error may cut it short. -/
structure Script.Performs (x : Script K V C (Except E α × Core C E)) (st : Store K V) (ps : List (K × V))
    (cs : List C) : Prop where
  part : Async.puts (x.exec st).1 <+: ps
  puts : ∀ a, (x.exec st).2.1.1 = .ok a → Async.puts (x.exec st).1 = ps
  spawns : ∀ a, (x.exec st).2.1.1 = .ok a → Async.spawns (x.exec st).1 = cs

namespace Script

variable {st : Store K V} {ps : List (K × V)} {cs : List C} {c : Core C E}

theorem performs_error (e : E) : (done (.error e, c) : Script K V C (Except E α × Core C E)).Performs st ps cs :=
  ⟨List.nil_prefix, by simp, by simp⟩

theorem performs_ok (a : α) : (done (.ok a, c) : Script K V C (Except E α × Core C E)).Performs st [] [] :=
  ⟨List.nil_prefix, fun _ _ => rfl, fun _ _ => rfl⟩

theorem Performs.tryRead {k : K} {f : Option V → Core C E → Script K V C (Except E α × Core C E)}
    (h : (f (st.lookup k) c.io).Performs st ps cs) : (Script.tryRead c k f).Performs st ps cs := by
  unfold Script.tryRead
  split
  · exact performs_error _
  · exact ⟨h.part, h.puts, h.spawns⟩

theorem Performs.tryWrite {k : K} {v : V} {f : Core C E → Script K V C (Except E α × Core C E)}
    (h : (f c.io).Performs (st.insert k v) ps cs) : (Script.tryWrite c k v f).Performs st ((k, v) :: ps) cs := by
  unfold Script.tryWrite
  split
  · exact performs_error _
  · exact ⟨(List.prefix_cons_inj _).mpr h.part, fun a ha => congrArg _ (h.puts a ha), h.spawns⟩

theorem Performs.spawnAll {x : Script K V C (Except E α × Core C E)} {xs : List C} (h : x.Performs st ps cs) :
    (Script.spawnAll xs x).Performs st ps (xs ++ cs) := by
  constructor <;> rw [exec_spawnAll]
  · rw [puts_append, puts_spawns]
    exact h.part
  · rw [puts_append, puts_spawns]
    exact h.puts
  · rw [spawns_append, spawns_spawns]
    exact fun a ha => congrArg (xs ++ ·) (h.spawns a ha)

end Script

end Written

end Async
