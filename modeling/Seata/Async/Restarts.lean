import Seata.Async.Rules

/-!
# Crashes and restarts

A crash leaves the store as it was and nothing else: the handlers and the tasks of the pool are gone. After it other
handlers run on what was stored.

- `Epochs.run`: **runs with crashes between them are one run**, of all handlers together, in which those from before a
  crash have no turn after it;
- `Script.Leaves`: the result of the script tells which keys are there;
- `Interleaving.leaves`: **what a result tells stays true**, since no key is ever removed;
- `Interleaving.there`: what handlers do when they start with a key there.
-/

namespace Async

variable {K V C E α β γ : Type}

/-! ## Runs with crashes between them -/

/-- A turn of a handler behind the first `n`. -/
def Turn.behind (n : Nat) : Turn → Turn
  | .main i => .main (n + i)
  | .task i j => .task (n + i) j

def behind (n : Nat) (tr : Trace K V C) : Trace K V C := tr.map fun x => (x.1.behind n, x.2)

theorem behind_append (n : Nat) (tr tr' : Trace K V C) : behind n (tr ++ tr') = behind n tr ++ behind n tr' :=
  List.map_append

theorem behind_behind (n m : Nat) (tr : Trace K V C) : behind n (behind m tr) = behind (n + m) tr := by
  rw [behind, behind, List.map_map]
  refine List.map_congr_left fun x _ => ?_
  rcases x with ⟨_ | _, e⟩ <;> simp [Turn.behind, Nat.add_assoc]

section Epochs

variable [DecidableEq K]

/-- **Each list of handlers runs on what the one before has left** at its crash. The pool shows all handlers, as they
were when they crashed. -/
inductive Epochs (st : Store K V) : List (List (Prog K V C E α × Env C E)) → Trace K V C → Pool K V C E α → Prop
  | nil : Epochs st [] [] ⟨st, []⟩
  | next {epochs : List (List (Prog K V C E α × Env C E))} {tr tr' : Trace K V C} {b s : Pool K V C E α}
      {ps : List (Prog K V C E α × Env C E)} (before : Epochs st epochs tr b) (run : Run (.init b.store ps) tr' s) :
      Epochs st (epochs ++ [ps]) (tr ++ behind b.procs.length tr') ⟨s.store, b.procs ++ s.procs⟩

variable {s s' : Pool K V C E α} {t : Turn} {e : Event K V C} {tr : Trace K V C}

/-- A turn beside handlers that have none. -/
theorem step_append_right (h : s.step t = some (s', e)) (qs : List (Proc K V C E α)) :
    (⟨s.store, s.procs ++ qs⟩ : Pool K V C E α).step t = some (⟨s'.store, s'.procs ++ qs⟩, e) := by
  cases t with
  | main i =>
    obtain ⟨p, p', hp, hm, hps⟩ := Pool.main_of_step h
    have hi := (List.getElem?_eq_some_iff.mp hp).1
    simp only [Pool.step, List.getElem?_append_left hi, hp, Option.bind_some, hm, Option.map_some, hps,
      List.set_append_left _ _ hi]
  | task i j =>
    obtain ⟨p, p', hp, ht, hst, hps⟩ := Pool.task_of_step h
    have hi := (List.getElem?_eq_some_iff.mp hp).1
    simp only [Pool.step, List.getElem?_append_left hi, hp, Option.bind_some, ht, Option.map_some, hps, hst,
      List.set_append_left _ _ hi]

/-- A turn behind handlers that have none. -/
theorem step_append_left (h : s.step t = some (s', e)) (qs : List (Proc K V C E α)) :
    (⟨s.store, qs ++ s.procs⟩ : Pool K V C E α).step (t.behind qs.length) =
      some (⟨s'.store, qs ++ s'.procs⟩, e) := by
  have hget (i : Nat) : (qs ++ s.procs)[qs.length + i]? = s.procs[i]? := by
    rw [List.getElem?_append_right (Nat.le_add_right _ _), Nat.add_sub_cancel_left]
  have hset (i : Nat) (p : Proc K V C E α) : (qs ++ s.procs).set (qs.length + i) p = qs ++ s.procs.set i p := by
    rw [List.set_append_right _ _ (Nat.le_add_right _ _), Nat.add_sub_cancel_left]
  cases t with
  | main i =>
    obtain ⟨p, p', hp, hm, hps⟩ := Pool.main_of_step h
    simp only [Pool.step, Turn.behind, hget, hp, Option.bind_some, hm, Option.map_some, hps, hset]
  | task i j =>
    obtain ⟨p, p', hp, ht, hst, hps⟩ := Pool.task_of_step h
    simp only [Pool.step, Turn.behind, hget, hp, Option.bind_some, ht, Option.map_some, hps, hst, hset]

theorem Run.append_right {s₀ : Pool K V C E α} (h : Run s₀ tr s) (qs : List (Proc K V C E α)) :
    Run ⟨s₀.store, s₀.procs ++ qs⟩ tr ⟨s.store, s.procs ++ qs⟩ := by
  induction h with
  | nil => exact .nil
  | snoc _ hs ih => exact ih.snoc (step_append_right hs qs)

theorem Run.append_left {s₀ : Pool K V C E α} (h : Run s₀ tr s) (qs : List (Proc K V C E α)) :
    Run ⟨s₀.store, qs ++ s₀.procs⟩ (behind qs.length tr) ⟨s.store, qs ++ s.procs⟩ := by
  induction h with
  | nil => exact .nil
  | snoc _ hs ih =>
    rw [behind_append]
    exact ih.snoc (step_append_left hs qs)

/-- Runs and crashes after runs and crashes. -/
theorem Epochs.trans {st : Store K V} {epochs later : List (List (Prog K V C E α × Env C E))}
    {tr tr' : Trace K V C} {b b' : Pool K V C E α} (h : Epochs st epochs tr b)
    (h' : Epochs b.store later tr' b') :
    Epochs st (epochs ++ later) (tr ++ behind b.procs.length tr') ⟨b'.store, b.procs ++ b'.procs⟩ := by
  induction h' with
  | nil => simpa [behind] using h
  | next _ hrun ih =>
    have hnext := ih.next hrun
    rw [List.length_append, ← behind_behind] at hnext
    simpa only [behind_append, List.append_assoc] using hnext

/-- **Runs with crashes between them are one run** of all the handlers. -/
theorem Epochs.run {st : Store K V} {epochs : List (List (Prog K V C E α × Env C E))} {b : Pool K V C E α}
    (h : Epochs st epochs tr b) : Run (.init st epochs.flatten) tr b := by
  induction h with
  | nil => exact .nil
  | @next epochs tr tr' b s ps _ hrun ih =>
    have hinit : (Pool.init st (epochs ++ [ps]).flatten : Pool K V C E α) =
        ⟨st, (Pool.init st epochs.flatten).procs ++ (Pool.init b.store ps).procs⟩ := by
      simp [Pool.init]
    rw [hinit]
    exact (ih.append_right _).trans (hrun.append_left b.procs)

end Epochs

/-! ## What stays -/

namespace Script

/-- The keys in `D` are there, and at the end so are those that the result tells of by `R`. -/
def Leaves (R : β → K → Prop) : Script K V C β → Set K → Prop
  | .done b, D => ∀ k, R b k → k ∈ D
  | .read k f, D => ∀ v : Option V, (f v).Leaves R {k' | k' ∈ D ∨ k' = k ∧ v.isSome}
  | .write k _ x, D => x.Leaves R {k' | k' ∈ D ∨ k' = k}
  | .spawn _ x, D => x.Leaves R D

theorem Leaves.mono {R R' : β → K → Prop} (hR : ∀ b k, R' b k → R b k) :
    ∀ {x : Script K V C β} {D : Set K}, x.Leaves R D → x.Leaves R' D
  | .done b, _, h => fun k hk => h k (hR b k hk)
  | .read _ _, _, h => fun v => (h v).mono hR
  | .write _ _ x, _, h => Leaves.mono (x := x) hR h
  | .spawn _ x, _, h => Leaves.mono (x := x) hR h

/-- Whatever the result, the keys are already there. -/
theorem Leaves.of_mem {R : β → K → Prop} : ∀ {x : Script K V C β} {D : Set K}, (∀ b k, R b k → k ∈ D) → x.Leaves R D
  | .done b, _, h => h b
  | .read _ _, _, h => fun _ => of_mem fun b k hk => Or.inl (h b k hk)
  | .write _ _ x, _, h => of_mem (x := x) fun b k hk => Or.inl (h b k hk)
  | .spawn _ x, _, h => of_mem (x := x) h

/-- The result of a success is changed. -/
theorem Leaves.andThen_done {R : Except E γ × Core C E → K → Prop} {g : α → γ} :
    ∀ {x : Script K V C (Except E α × Core C E)} {D : Set K}, x.Leaves (fun b => R (b.1.map g, b.2)) D →
      (x.andThen fun a c => .done (.ok (g a), c)).Leaves R D
  | .done (.ok _, _), _, h => h
  | .done (.error _, _), _, h => h
  | .read _ _, _, h => fun v => andThen_done (h v)
  | .write _ _ x, _, h => andThen_done (x := x) h
  | .spawn _ x, _, h => andThen_done (x := x) h

section Try

variable {R : Except E α × Core C E → K → Prop} {D : Set K} {k : K} {c : Core C E}

theorem Leaves.tryRead {f : Option V → Core C E → Script K V C (Except E α × Core C E)}
    (hf : ∀ v : Option V, (f v c.io).Leaves R {k' | k' ∈ D ∨ k' = k ∧ v.isSome})
    (he : ∀ e k', ¬ R (.error e, c.io) k') :
    (Script.tryRead c k f).Leaves R D := by
  unfold Script.tryRead
  split
  · exact fun k' hk' => absurd hk' (he _ k')
  · exact hf

theorem Leaves.tryWrite {v : V} {f : Core C E → Script K V C (Except E α × Core C E)}
    (hf : (f c.io).Leaves R {k' | k' ∈ D ∨ k' = k}) (he : ∀ e k', ¬ R (.error e, c.io) k') :
    (Script.tryWrite c k v f).Leaves R D := by
  unfold Script.tryWrite
  split
  · exact fun k' hk' => absurd hk' (he _ k')
  · exact hf

end Try

end Script

section Leaves

variable [DecidableEq K] {st₀ st : Store K V} {xs₀ xs : List (Script K V C β)} {tr : Trace K V C}
  {R : Nat → β → K → Prop}

theorem isSome_lookup_insert (st : Store K V) {k k' : K} (v : V) (h : (st.lookup k').isSome ∨ k' = k) :
    ((st.insert k v).lookup k').isSome := by
  rw [Script.lookup_insert_ite]
  split
  · rfl
  · exact h.resolve_right ‹_›

/-- **What the results tell stays true** along every interleaving. -/
theorem Interleaving.leaves (h : Interleaving st₀ xs₀ tr st xs)
    (hxs : ∀ (i : Nat) (x : Script K V C β), xs₀[i]? = some x → x.Leaves (R i) ∅) :
    ∀ (i : Nat) (x : Script K V C β), xs[i]? = some x → ∃ D, x.Leaves (R i) D ∧ ∀ k ∈ D, (st.lookup k).isSome := by
  induction h with
  | nil => exact fun i x hx => ⟨∅, hxs i x hx, nofun⟩
  | @snoc tr st st' xs xs' t e _ hm ih =>
    have hset {j : Nat} {y : Script K V C β} {st' : Store K V}
        (hkeep : ∀ k, (st.lookup k).isSome → (st'.lookup k).isSome)
        (hy : ∃ D, y.Leaves (R j) D ∧ ∀ k ∈ D, (st'.lookup k).isSome) :
        ∀ (i : Nat) (x : Script K V C β), (xs.set j y)[i]? = some x →
          ∃ D, x.Leaves (R i) D ∧ ∀ k ∈ D, (st'.lookup k).isSome := by
      intro i x hx
      rcases getElem?_set_cases hx with ⟨rfl, rfl⟩ | ⟨-, hx⟩
      · exact hy
      · obtain ⟨D, hD, hthere⟩ := ih i x hx
        exact ⟨D, hD, fun k hk => hkeep k (hthere k hk)⟩
    cases hm with
    | silent hidden => exact ih
    | @read j k f head =>
      obtain ⟨D, hD, hthere⟩ := ih j _ head
      refine hset (fun _ h => h) ⟨_, hD (st.lookup k), ?_⟩
      rintro k' (hk' | ⟨rfl, hk'⟩)
      · exact hthere k' hk'
      · exact hk'
    | @write j k v y head =>
      obtain ⟨D, hD, hthere⟩ := ih j _ head
      refine hset (fun k' h => isSome_lookup_insert st v (.inl h)) ⟨_, hD, ?_⟩
      rintro k' (hk' | rfl)
      · exact isSome_lookup_insert st v (.inl (hthere k' hk'))
      · exact isSome_lookup_insert st v (.inr rfl)
    | @spawn j c y head =>
      obtain ⟨D, hD, hthere⟩ := ih j _ head
      exact hset (fun _ h => h) ⟨D, hD, hthere⟩

end Leaves

/-! ## With a key there -/

/-- A script guarantees what is always true. -/
theorem Script.Guarantees.of_all {A : K → Option V → Prop} {W : K → V → Prop} {S : C → Prop} {R : β → Prop}
    (hW : ∀ k v, W k v) (hS : ∀ c, S c) (hR : ∀ b, R b) : ∀ {x : Script K V C β}, x.Guarantees A W S R
  | .done b => hR b
  | .read _ _ => fun _ _ => of_all hW hS hR
  | .write k v _ => ⟨hW k v, of_all hW hS hR⟩
  | .spawn c _ => ⟨hS c, of_all hW hS hR⟩

/-- **A key that is there at the start** can be relied on by all, for ever. -/
theorem Interleaving.there [DecidableEq K] {st₀ st : Store K V} {xs₀ xs : List (Script K V C β)} {tr : Trace K V C}
    {W : Nat → K → V → Prop} {R : Nat → β → Prop} (h : Interleaving st₀ xs₀ tr st xs) {k : K}
    (hk : (st₀.lookup k).isSome)
    (hxs : ∀ (i : Nat) (x : Script K V C β), xs₀[i]? = some x →
      x.Guarantees (fun k' v => k' = k → v.isSome) (W i) (fun _ => True) (R i)) :
    (∀ i b, xs[i]? = some (.done b) → R i b) ∧ ∀ t k' v, (t, .put k' v) ∈ tr → W t.handler k' v := by
  have hstart (k' : K) : k' = k → (st₀.lookup k').isSome := by
    rintro rfl
    exact hk
  obtain ⟨-, hend, hputs, -⟩ := h.guarantees hstart hxs fun _ _ _ _ _ _ => rfl
  exact ⟨fun i b hb => hend i _ hb, hputs⟩

end Async
