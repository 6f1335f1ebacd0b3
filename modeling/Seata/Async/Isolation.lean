import Seata.Async.Rules

/-!
# Handlers that keep to their own keys

Handlers notice each other only through the keys that they share.

- `Script.Within A P`: relying on reads within `A`, the script touches only keys in `P` and writes within `A`; then each
  handler touches only its own keys along every interleaving (`Interleaving.within`);
- `Run.project`: if the chosen handlers touch only keys in `Q` and the others only keys outside `Q`, the steps of the
  others can be deleted from the run: **the chosen handlers and the keys in `Q` end as they did**.
-/

namespace Async

variable {K V C E α β γ : Type}

/-! ## Scripts that keep to some keys -/

/-- The key that an event reads or writes. -/
def Event.key? : Event K V C → Option K
  | .get k _ => some k
  | .put k _ => some k
  | _ => none

theorem Event.key?_hidden {e : Event K V C} (h : e.visible = false) : e.key? = none := by
  cases e <;> first | rfl | cases h

namespace Script

variable {A : K → Option V → Prop} {P : K → Prop}

/-- Relying on reads within `A`, the script touches only keys in `P`, and writes within `A`. -/
def Within (A : K → Option V → Prop) (P : K → Prop) : Script K V C β → Prop
  | .done _ => True
  | .read k f => P k ∧ ∀ v, A k v → (f v).Within A P
  | .write k v x => P k ∧ A k (some v) ∧ x.Within A P
  | .spawn _ x => x.Within A P

theorem Within.mono {P' : K → Prop} (hP : ∀ k, P k → P' k) : ∀ {x : Script K V C β}, x.Within A P → x.Within A P'
  | .done _, _ => trivial
  | .read _ _, h => ⟨hP _ h.1, fun v hv => (h.2 v hv).mono hP⟩
  | .write _ _ _, h => ⟨hP _ h.1, h.2.1, h.2.2.mono hP⟩
  | .spawn _ x, h => Within.mono (x := x) hP h

theorem Within.bind {f : β → Script K V C γ} (hf : ∀ b, (f b).Within A P) :
    ∀ {x : Script K V C β}, x.Within A P → (x.bind f).Within A P
  | .done b, _ => hf b
  | .read _ _, h => ⟨h.1, fun v hv => Within.bind hf (h.2 v hv)⟩
  | .write _ _ _, h => ⟨h.1, h.2.1, Within.bind hf h.2.2⟩
  | .spawn _ x, h => Within.bind hf (x := x) h

/-- Go on after a success. -/
theorem Within.andThen {x : Script K V C (Except E α × Core C E)}
    {f : α → Core C E → Script K V C (Except E γ × Core C E)} (hx : x.Within A P) (hf : ∀ a c, (f a c).Within A P) :
    (x.andThen f).Within A P := by
  apply hx.bind
  rintro ⟨r, c⟩
  cases r with
  | error e => trivial
  | ok a => exact hf a c

theorem Within.tryRead {c : Core C E} {k : K}
    {f : Option V → Core C E → Script K V C (Except E α × Core C E)} (hk : P k)
    (hf : ∀ v, A k v → (f v c.io).Within A P) : (Script.tryRead c k f).Within A P := by
  unfold Script.tryRead
  split
  · trivial
  · exact ⟨hk, hf⟩

theorem Within.tryWrite {c : Core C E} {k : K} {v : V} {f : Core C E → Script K V C (Except E α × Core C E)} (hk : P k)
    (hv : A k (some v)) (hf : (f c.io).Within A P) : (Script.tryWrite c k v f).Within A P := by
  unfold Script.tryWrite
  split
  · trivial
  · exact ⟨hk, hv, hf⟩

theorem Within.spawnAll {x : Script K V C β} (h : x.Within A P) : ∀ cs : List C, (Script.spawnAll cs x).Within A P
  | [] => h
  | _ :: cs => Within.spawnAll h cs

/-- Alone, the script leaves the store within `A`, and the keys outside `P` as they are. -/
theorem Within.exec [DecidableEq K] : ∀ {x : Script K V C β} {st : Store K V}, x.Within A P →
    (∀ k, A k (st.lookup k)) →
      (∀ k, A k ((x.exec st).2.2.lookup k)) ∧ ∀ k, ¬ P k → (x.exec st).2.2.lookup k = st.lookup k
  | .done _, _, _, hst => ⟨hst, fun _ _ => rfl⟩
  | .read k _, _, h, hst => (h.2 _ (hst k)).exec hst
  | .write k v _, st, h, hst => by
    obtain ⟨hA, hothers⟩ := h.2.2.exec (lookup_insert_of hst h.2.1)
    refine ⟨hA, fun k' hk' => ?_⟩
    have hne : k' ≠ k := fun heq => hk' (heq ▸ h.1)
    exact (hothers k' hk').trans (Finmap.lookup_insert_of_ne _ hne)
  | .spawn _ x, _, h, hst => Within.exec (x := x) h hst

end Script

section Within

variable [DecidableEq K] {A : K → Option V → Prop} {P : Nat → K → Prop} {st₀ st : Store K V}
  {xs₀ xs : List (Script K V C β)} {tr : Trace K V C}

/-- **Each handler touches only its own keys**, if the scripts do. -/
theorem Interleaving.within (h : Interleaving st₀ xs₀ tr st xs) (hst : ∀ k, A k (st₀.lookup k))
    (hxs : ∀ (i : Nat) (x : Script K V C β), xs₀[i]? = some x → x.Within A (P i)) :
    (∀ k, A k (st.lookup k)) ∧ (∀ (i : Nat) (x : Script K V C β), xs[i]? = some x → x.Within A (P i)) ∧
      ∀ t e, (t, e) ∈ tr → ∀ k, e.key? = some k → P t.handler k := by
  induction h with
  | nil => exact ⟨hst, hxs, by simp⟩
  | @snoc tr st st' xs xs' t e _ hm ih =>
    obtain ⟨hst, hxs, htr⟩ := ih
    have hset {i : Nat} {y : Script K V C β} (hy : y.Within A (P i)) :
        ∀ (j : Nat) (x : Script K V C β), (xs.set i y)[j]? = some x → x.Within A (P j) := by
      intro j x hx
      rcases getElem?_set_cases hx with ⟨rfl, rfl⟩ | ⟨-, hx⟩
      · exact hy
      · exact hxs j x hx
    have hevent (he : ∀ k, e.key? = some k → P t.handler k) :
        ∀ t' e', (t', e') ∈ tr ++ [(t, e)] → ∀ k, e'.key? = some k → P t'.handler k := by
      intro t' e' hm'
      rcases mem_snoc hm' with hm' | hm'
      · exact htr t' e' hm'
      · cases hm'
        exact he
    cases hm with
    | silent hidden =>
      refine ⟨hst, hxs, hevent fun k hk => ?_⟩
      rw [Event.key?_hidden hidden] at hk
      cases hk
    | read head =>
      obtain ⟨hk, hf⟩ := hxs _ _ head
      refine ⟨hst, hset (hf _ (hst _)), hevent fun k' hk' => ?_⟩
      cases hk'
      exact hk
    | write head =>
      obtain ⟨hk, hv, hx⟩ := hxs _ _ head
      refine ⟨Script.lookup_insert_of hst hv, hset hx, hevent fun k' hk' => ?_⟩
      cases hk'
      exact hk
    | @spawn i c y head =>
      have hy : (Script.spawn c y).Within A (P i) := hxs _ _ head
      exact ⟨hst, hset (y := y) hy, hevent fun k' hk' => by cases hk'⟩

end Within

/-! ## Deleting the steps of the others -/

section Project

variable [DecidableEq K] {s s₁ s' : Pool K V C E α} {t : Turn} {e : Event K V C}

/-- An operation answers the same on a store that agrees on its key. -/
theorem perform_agree {st st' st₁ : Store K V} {l l₁ : Local C E} {o : Op K V C} {r : o.Reply E}
    (h : perform st l o = some (r, st₁, l₁, e)) (hst : ∀ k, e.key? = some k → st'.lookup k = st.lookup k) :
    ∃ st₁', perform st' l o = some (r, st₁', l₁, e) ∧ ∀ k, st'.lookup k = st.lookup k →
      st₁'.lookup k = st₁.lookup k := by
  cases o with
  | get k =>
    simp only [perform] at h ⊢
    split at h
    · cases h
      exact ⟨st', rfl, fun _ h => h⟩
    · cases h
      rw [hst k rfl]
      exact ⟨st', rfl, fun _ h => h⟩
  | put k v =>
    simp only [perform] at h ⊢
    split at h
    · cases h
      exact ⟨st', rfl, fun _ h => h⟩
    · cases h
      refine ⟨st'.insert k v, rfl, fun k' hk' => ?_⟩
      rw [Script.lookup_insert_ite, Script.lookup_insert_ite, hk']
  | now | newId | spawn =>
    cases h
    exact ⟨st', rfl, fun _ h => h⟩
  | semaphore n =>
    simp only [perform] at h ⊢
    split at h
    · rename_i hn
      cases h
      exact ⟨st', if_pos hn, fun _ h => h⟩
    · cases h
  | acquire =>
    simp only [perform] at h ⊢
    split at h
    · cases h
    · rename_i hn
      cases h
      exact ⟨st', if_neg hn, fun _ h => h⟩
  | join n =>
    simp only [perform] at h ⊢
    split at h
    · split at h
      · rename_i hf
        cases h
        exact ⟨st', if_pos hf, fun _ h => h⟩
      · cases h
    · cases h

/-- A turn does the same on a store that agrees on its key. -/
theorem step_agree (h : s.step t = some (s₁, e)) (hp : s'.procs[t.handler]? = s.procs[t.handler]?)
    (hst : ∀ k, e.key? = some k → s'.store.lookup k = s.store.lookup k) :
    ∃ p s₁', s'.step t = some (s₁', e) ∧ s₁.procs = s.procs.set t.handler p ∧ s₁'.procs = s'.procs.set t.handler p ∧
      ∀ k, s'.store.lookup k = s.store.lookup k → s₁'.store.lookup k = s₁.store.lookup k := by
  cases t with
  | main i =>
    obtain ⟨p, p₁, hi, hm, hps⟩ := Pool.main_of_step h
    have hi' : s'.procs[i]? = some p := hp.trans hi
    obtain ⟨prog, l⟩ := p
    cases prog with
    | ret a => cases hm
    | ask o k =>
      obtain ⟨r, l₂, hop, rfl⟩ := Proc.main_ask hm
      obtain ⟨st₁', hop', hagree⟩ := perform_agree hop hst
      exact ⟨_, ⟨st₁', _⟩, by simp only [Pool.step, hi', Option.bind_some, Proc.main, hop', Option.map_some]; rfl,
        hps, rfl, hagree⟩
  | task i j =>
    obtain ⟨p, p₁, hi, hm, hs, hps⟩ := Pool.task_of_step h
    have hi' : s'.procs[i]? = some p := hp.trans hi
    refine ⟨p₁, ⟨s'.store, _⟩, by simp only [Pool.step, hi', Option.bind_some, hm, Option.map_some]; rfl, hps, rfl,
      fun k hk => ?_⟩
    rw [hs]
    exact hk

/-- A turn leaves the other handlers and the other keys alone. -/
theorem step_frame (h : s.step t = some (s₁, e)) :
    (∀ i, i ≠ t.handler → s₁.procs[i]? = s.procs[i]?) ∧ ∀ k, e.key? ≠ some k →
      s₁.store.lookup k = s.store.lookup k := by
  cases t with
  | main i =>
    obtain ⟨p, p', -, hm, hps⟩ := step_main h
    refine ⟨fun j hj => by rw [hps]; exact List.getElem?_set_ne (Ne.symm hj), fun k hk => ?_⟩
    generalize s₁.store = st₁ at hm
    cases hm with
    | write _ _ => exact Finmap.lookup_insert_of_ne _ fun heq => hk (congrArg some heq.symm)
    | _ => rfl
  | task i j =>
    obtain ⟨p, p', -, -, hst, hps⟩ := step_task h
    exact ⟨fun j hj => by rw [hps]; exact List.getElem?_set_ne (Ne.symm hj), fun k _ => by rw [hst]⟩

/-- **The steps of the others can be deleted**: if the chosen handlers touch only keys in `Q` and the others only keys
outside `Q`, the chosen handlers and the keys in `Q` end as they did. -/
theorem Run.project {s₀ : Pool K V C E α} {tr : Trace K V C} (h : Run s₀ tr s) (I : Nat → Bool) {Q : K → Prop}
    (hin : ∀ t e, (t, e) ∈ tr → I t.handler = true → ∀ k, e.key? = some k → Q k)
    (hout : ∀ t e, (t, e) ∈ tr → I t.handler = false → ∀ k, e.key? = some k → ¬ Q k) :
    ∃ s', Run s₀ (tr.filter fun x => I x.1.handler) s' ∧ (∀ i, I i = true → s'.procs[i]? = s.procs[i]?) ∧
      ∀ k, Q k → s'.store.lookup k = s.store.lookup k := by
  induction h with
  | nil => exact ⟨s₀, .nil, fun _ _ => rfl, fun _ _ => rfl⟩
  | @snoc tr s s₁ t e _ hs ih =>
    obtain ⟨s', hrun, hprocs, hstore⟩ := ih (fun t e hm => hin t e (List.mem_append_left _ hm))
      fun t e hm => hout t e (List.mem_append_left _ hm)
    have hlast : (t, e) ∈ tr ++ [(t, e)] := List.mem_append_right _ (List.mem_singleton_self _)
    rw [List.filter_append]
    cases hI : I t.handler with
    | true =>
      obtain ⟨p, s₁', hs', hps, hps', hagree⟩ :=
        step_agree hs (hprocs _ hI) fun k hk => hstore k (hin t e hlast hI k hk)
      rw [List.filter_cons_of_pos (by exact hI), List.filter_nil]
      refine ⟨s₁', hrun.snoc hs', fun i hi => ?_, fun k hk => hagree k (hstore k hk)⟩
      rw [hps, hps', List.getElem?_set, List.getElem?_set]
      have hlen : t.handler < s'.procs.length ↔ t.handler < s.procs.length := by
        rw [← not_iff_not, not_lt, not_lt, ← List.getElem?_eq_none_iff, ← List.getElem?_eq_none_iff, hprocs _ hI]
      simp only [hlen, hprocs i hi]
    | false =>
      obtain ⟨hothers, hkeys⟩ := step_frame hs
      rw [List.filter_cons_of_neg (by simp [hI]), List.filter_nil, List.append_nil]
      refine ⟨s', hrun, fun i hi => ?_, fun k hk => ?_⟩
      · rw [hprocs i hi, hothers i fun heq => ?_]
        rw [heq, hI] at hi
        cases hi
      · rw [hstore k hk, hkeys k fun heq => hout t e hlast hI k heq hk]

end Project

end Async
