import Seata.Async.Isolation
import Seata.Async.Completion

/-!
# Handlers that differ in their replies only

A front end answers with a reply that it computes from the result of an operation.

- `Pool.replying f`: the pool in which handler `i` answers with `f i` of its result;
- `run_replying_iff`: **it has the same runs**, turn by turn, with the replies for the results;
- `Run.omit`: handlers that put nothing, such as the quiet ones (`Run.quiet`), can be left out of a run.
-/

namespace Async

variable {K V C E α β : Type}

/-- The handler with its result changed into a reply. -/
def Proc.replying (f : α → β) (p : Proc K V C E α) : Proc K V C E β := ⟨p.prog >>= fun a => .ret (f a), p.loc⟩

/-- The pool with the results of its handlers changed into replies. -/
def Pool.replying (f : Nat → α → β) (s : Pool K V C E α) : Pool K V C E β :=
  ⟨s.store, s.procs.mapIdx fun i p => p.replying (f i)⟩

/-- A reply is the reply to a result. -/
theorem bind_eq_ret {f : α → β} : ∀ {p : Prog K V C E α} {b : β}, (p >>= fun a => .ret (f a)) = .ret b →
    ∃ a, p = .ret a ∧ f a = b
  | .ret a, _, h => ⟨a, rfl, Prog.ret.inj h⟩

section Replying

variable [DecidableEq K] {f : Nat → α → β} {s₀ s : Pool K V C E α} {tr : Trace K V C}

theorem Proc.main_replying (f : α → β) (st : Store K V) (p : Proc K V C E α) :
    (p.replying f).main st = (p.main st).map fun r => (r.1, r.2.1.replying f, r.2.2) := by
  obtain ⟨prog, l⟩ := p
  cases prog with
  | ret a => rfl
  | ask o k =>
    show (perform st l o).map _ = ((perform st l o).map _).map _
    rw [Option.map_map]
    rfl

omit [DecidableEq K] in
theorem Proc.task_replying (f : α → β) (p : Proc K V C E α) (j : Nat) :
    ((p.replying f).task j : Option (Proc K V C E β × Event K V C)) =
      (p.task j).map fun r => (r.1.replying f, r.2) := by
  show (background p.loc j).map _ = ((background p.loc j).map _).map _
  rw [Option.map_map]
  rfl

/-- **Turn by turn the same.** -/
theorem step_replying (f : Nat → α → β) (s : Pool K V C E α) (t : Turn) :
    (s.replying f).step t = (s.step t).map fun r => (r.1.replying f, r.2) := by
  cases t with
  | main i =>
    simp only [Pool.step, Pool.replying, List.getElem?_mapIdx]
    cases hp : s.procs[i]? with
    | none => rfl
    | some p =>
      simp only [Option.map_some, Option.bind_some, Proc.main_replying, Option.map_map]
      refine congrFun (congrArg Option.map (funext fun r => ?_)) _
      simp only [Function.comp_apply, List.mapIdx_set]
  | task i j =>
    simp only [Pool.step, Pool.replying, List.getElem?_mapIdx]
    cases hp : s.procs[i]? with
    | none => rfl
    | some p =>
      simp only [Option.map_some, Option.bind_some, Proc.task_replying, Option.map_map]
      refine congrFun (congrArg Option.map (funext fun r => ?_)) _
      simp only [Function.comp_apply, List.mapIdx_set]

theorem Run.replying (f : Nat → α → β) (h : Run s₀ tr s) : Run (s₀.replying f) tr (s.replying f) := by
  induction h with
  | nil => exact .nil
  | snoc _ hs ih => exact ih.snoc (by rw [step_replying, hs, Option.map_some])

/-- **The runs of a pool with replies** are those of the pool. -/
theorem run_replying_iff {r : Pool K V C E β} :
    Run (s₀.replying f) tr r ↔ ∃ s, Run s₀ tr s ∧ r = s.replying f := by
  constructor
  · intro h
    induction h with
    | nil => exact ⟨s₀, .nil, rfl⟩
    | snoc _ hs ih =>
      obtain ⟨s, hrun, rfl⟩ := ih
      rw [step_replying, Option.map_eq_some_iff] at hs
      obtain ⟨⟨s', e⟩, hs', heq⟩ := hs
      cases heq
      exact ⟨s', hrun.snoc hs', rfl⟩
  · rintro ⟨s, hrun, rfl⟩
    exact hrun.replying f

omit [DecidableEq K] in
/-- Which reply a handler has given. -/
theorem ret_replying_iff {i : Nat} {b : β} : (∃ q, (s.replying f).procs[i]? = some q ∧ q.prog = .ret b) ↔
    ∃ p a, s.procs[i]? = some p ∧ p.prog = .ret a ∧ f i a = b := by
  simp only [Pool.replying, List.getElem?_mapIdx, Option.map_eq_some_iff]
  constructor
  · rintro ⟨q, ⟨p, hp, rfl⟩, hq⟩
    obtain ⟨a, ha, hb⟩ := bind_eq_ret hq
    exact ⟨p, a, hp, ha, hb⟩
  · rintro ⟨p, a, hp, ha, rfl⟩
    refine ⟨_, ⟨p, hp, rfl⟩, ?_⟩
    show (p.prog >>= fun a => .ret (f i a)) = _
    rw [ha]
    rfl

end Replying

/-! ## What a handler can return -/

/-- Whatever its operations answer, the program returns within `R`. -/
def Prog.Returns (R : α → Prop) : Prog K V C E α → Prop
  | .ret a => R a
  | .ask _ k => ∀ r, (k r).Returns R

theorem returns_map {R : β → Prop} {f : α → β} (hf : ∀ a, R (f a)) :
    ∀ p : Prog K V C E α, (p >>= fun a => .ret (f a)).Returns R
  | .ret a => hf a
  | .ask _ k => fun r => returns_map hf (k r)

section Returns

variable [DecidableEq K] {R : α → Prop} {s₀ s : Pool K V C E α} {tr : Trace K V C} {i : Nat}

/-- A handler keeps to what it can return. -/
theorem Run.returns (h : Run s₀ tr s) {p : Proc K V C E α} (hp : s₀.procs[i]? = some p) (hR : p.prog.Returns R) :
    ∃ p', s.procs[i]? = some p' ∧ p'.prog.Returns R := by
  refine h.handler (P := fun p => p.prog.Returns R) (fun _ {p p' st st' e} hp hm => ?_) (fun {p p' j e} hp ht => ?_) hp
    hR
  · obtain ⟨prog, l⟩ := p
    cases prog with
    | ret a => cases hm
    | ask o k =>
      obtain ⟨r, l', -, rfl⟩ := Proc.main_ask hm
      exact hp r
  · obtain ⟨l', -, rfl⟩ := Proc.background_of_task ht
    exact hp

end Returns

/-! ## Handlers that put nothing -/

/-- Whatever its operations answer, the program puts nothing. -/
def Prog.Quiet : Prog K V C E α → Prop
  | .ret _ => True
  | .ask o k => (∀ key v, o ≠ .put key v) ∧ ∀ r, (k r).Quiet

theorem Prog.Quiet.map {f : α → β} : ∀ {p : Prog K V C E α}, p.Quiet → (p >>= fun a => .ret (f a)).Quiet
  | .ret _, _ => trivial
  | .ask _ _, h => ⟨h.1, fun r => (h.2 r).map⟩

section Omit

variable [DecidableEq K] {s₀ s s₁ : Pool K V C E α} {tr : Trace K V C} {t : Turn} {e : Event K V C}

/-- An operation that is not a put shows none. -/
theorem perform_quiet {st st' : Store K V} {l l' : Local C E} {o : Op K V C} {r : o.Reply E}
    (ho : ∀ key v, o ≠ .put key v) (h : perform st l o = some (r, st', l', e)) : e.put? = none := by
  cases o with
  | put key v => exact absurd rfl (ho key v)
  | get key =>
    simp only [perform] at h
    split at h <;> cases h <;> rfl
  | semaphore n | acquire =>
    simp only [perform] at h
    split at h <;> cases h
    rfl
  | join n =>
    simp only [perform] at h
    split at h
    · split at h <;> cases h
      rfl
    · cases h
  | _ =>
    cases h
    rfl

/-- A turn of a quiet handler. -/
theorem step_of_quiet (h : s.step t = some (s₁, e)) (hq : ∀ p, s.procs[t.handler]? = some p → p.prog.Quiet) :
    e.put? = none ∧ ∃ p', s₁.procs = s.procs.set t.handler p' ∧ p'.prog.Quiet := by
  cases t with
  | main i =>
    obtain ⟨⟨prog, l⟩, p', hp, hm, hps⟩ := Pool.main_of_step h
    have hp := hq _ hp
    cases prog with
    | ret a => cases hm
    | ask o k =>
      obtain ⟨r, l', hr, rfl⟩ := Proc.main_ask hm
      exact ⟨perform_quiet hp.1 hr, _, hps, hp.2 r⟩
  | task i j =>
    obtain ⟨p, p', hp, ht, -, hps⟩ := Pool.task_of_step h
    obtain ⟨l', hb, rfl⟩ := Proc.background_of_task ht
    refine ⟨?_, _, hps, hq p hp⟩
    obtain ⟨_, -, -, ⟨-, rfl, -⟩ | ⟨-, rfl | rfl | rfl, -⟩⟩ := background_cases hb <;> rfl

/-- **A quiet handler puts nothing**, in any run. -/
theorem Run.quiet (h : Run s₀ tr s) {i : Nat} (hq : ∀ p, s₀.procs[i]? = some p → p.prog.Quiet) :
    (∀ p, s.procs[i]? = some p → p.prog.Quiet) ∧ ∀ t e, (t, e) ∈ tr → t.handler = i → e.put? = none := by
  induction h with
  | nil => exact ⟨hq, nofun⟩
  | @snoc tr s s₁ t e _ hs ih =>
    obtain ⟨hprocs, htr⟩ := ih
    by_cases hi : t.handler = i
    · subst hi
      obtain ⟨he, p', hps, hp'⟩ := step_of_quiet hs hprocs
      refine ⟨fun p hp => ?_, fun t' e' hm => ?_⟩
      · rw [hps] at hp
        rcases getElem?_set_cases hp with ⟨-, rfl⟩ | ⟨hne, -⟩
        · exact hp'
        · exact absurd rfl hne
      · rcases mem_snoc hm with hm | hm
        · exact htr t' e' hm
        · cases hm
          exact fun _ => he
    · refine ⟨fun p hp => hprocs p ?_, fun t' e' hm => ?_⟩
      · rwa [← (step_frame hs).1 i (Ne.symm hi)]
      · rcases mem_snoc hm with hm | hm
        · exact htr t' e' hm
        · cases hm
          exact fun h => absurd h hi

/-- A turn that puts nothing leaves the store and the other handlers alone. -/
theorem step_quiet (h : s.step t = some (s₁, e)) (he : e.put? = none) :
    s₁.store = s.store ∧ ∀ i, i ≠ t.handler → s₁.procs[i]? = s.procs[i]? := by
  refine ⟨?_, (step_frame h).1⟩
  cases t with
  | main i =>
    obtain ⟨p, p', -, hm, -⟩ := step_main h
    generalize s₁.store = st₁ at hm ⊢
    cases hm with
    | write _ _ => cases he
    | _ => rfl
  | task i j =>
    obtain ⟨-, -, -, -, hst, -⟩ := step_task h
    exact hst

/-- **Handlers that put nothing can be left out**: the others and the store end as they did. -/
theorem Run.omit (h : Run s₀ tr s) (I : Nat → Bool)
    (hout : ∀ t e, (t, e) ∈ tr → I t.handler = false → e.put? = none) :
    ∃ s', Run s₀ (tr.filter fun x => I x.1.handler) s' ∧ (∀ i, I i = true → s'.procs[i]? = s.procs[i]?) ∧
      s'.store = s.store := by
  induction h with
  | nil => exact ⟨s₀, .nil, fun _ _ => rfl, rfl⟩
  | @snoc tr s s₁ t e _ hs ih =>
    obtain ⟨s', hrun, hprocs, hstore⟩ := ih fun t e hm => hout t e (List.mem_append_left _ hm)
    rw [List.filter_append]
    cases hI : I t.handler with
    | true =>
      obtain ⟨p, s₁', hs', hps, hps', hagree⟩ := step_agree hs (hprocs _ hI) fun k _ => by rw [hstore]
      rw [List.filter_cons_of_pos (by exact hI), List.filter_nil]
      refine ⟨s₁', hrun.snoc hs', fun i hi => ?_, Finmap.ext_lookup fun k => hagree k (by rw [hstore])⟩
      rw [hps, hps', List.getElem?_set, List.getElem?_set]
      have hlen : t.handler < s'.procs.length ↔ t.handler < s.procs.length := by
        rw [← not_iff_not, not_lt, not_lt, ← List.getElem?_eq_none_iff, ← List.getElem?_eq_none_iff, hprocs _ hI]
      simp only [hlen, hprocs i hi]
    | false =>
      obtain ⟨hst, hothers⟩ := step_quiet hs (hout t e (List.mem_append_right _ (List.mem_singleton_self _)) hI)
      rw [List.filter_cons_of_neg (by simp [hI]), List.filter_nil, List.append_nil]
      refine ⟨s', hrun, fun i hi => ?_, by rw [hstore, hst]⟩
      rw [hprocs i hi, hothers i fun heq => ?_]
      rw [heq, hI] at hi
      cases hi

end Omit

end Async
