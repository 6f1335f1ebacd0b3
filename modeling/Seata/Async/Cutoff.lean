import Seata.Async.Completion

/-!
# Handlers that are cut off

A timeout drops a handler between two of its turns and replies in its place; its background tasks go on. A run with
timeouts (`Timed`) is a run without, in which the handlers that were cut off are merely late (`Timed.run`): it has the
same trace, the same store and the same replies, but for those of the timeouts.
-/

namespace Async

variable {K V C E α : Type}

/-- The pool after handler `i` was cut off with the reply `late`, if there is such a handler and it has not returned. -/
def Pool.cut (late : α) (b : Pool K V C E α) (i : Nat) : Option (Pool K V C E α) :=
  (b.procs[i]?).bind fun q => match q.prog with
    | .ret _ => none
    | .ask _ _ => some ⟨b.store, b.procs.set i ⟨.ret late, q.loc⟩⟩

theorem Pool.cut_cases {late : α} {b b' : Pool K V C E α} {i : Nat} (h : b.cut late i = some b') :
    ∃ q, b.procs[i]? = some q ∧ (∀ a, q.prog ≠ .ret a) ∧ b' = ⟨b.store, b.procs.set i ⟨.ret late, q.loc⟩⟩ := by
  obtain ⟨q, hq, h⟩ := Option.bind_eq_some_iff.mp h
  split at h
  · cases h
  · rename_i hprog
    exact ⟨q, hq, by simp [hprog], (Option.some.inj h).symm⟩

variable [DecidableEq K]

/-- A run in which the handlers that `may` can be cut off, with the reply `late`. -/
inductive Timed (may : Nat → Prop) (late : α) (s₀ : Pool K V C E α) : Trace K V C → Pool K V C E α → Prop
  | nil : Timed may late s₀ [] s₀
  | snoc {tr : Trace K V C} {b b' : Pool K V C E α} {t : Turn} {e : Event K V C} :
      Timed may late s₀ tr b → b.step t = some (b', e) → Timed may late s₀ (tr ++ [(t, e)]) b'
  | drop {tr : Trace K V C} {b b' : Pool K V C E α} {i : Nat} :
      Timed may late s₀ tr b → may i → b.cut late i = some b' → Timed may late s₀ tr b'

/-- The handler `q` is `p`, or has been cut off where `p` is. -/
def CutOff (may : Nat → Prop) (late : α) (i : Nat) (p q : Proc K V C E α) : Prop :=
  q = p ∨ may i ∧ (∀ a, p.prog ≠ .ret a) ∧ q = ⟨.ret late, p.loc⟩

/-- The same pools, but for handlers that were cut off in the second. -/
structure Alongside (may : Nat → Prop) (late : α) (s b : Pool K V C E α) : Prop where
  store : s.store = b.store
  length : s.procs.length = b.procs.length
  procs : ∀ (i : Nat) (p q : Proc K V C E α), s.procs[i]? = some p → b.procs[i]? = some q → CutOff may late i p q

variable {may : Nat → Prop} {late : α} {s₀ s b b' : Pool K V C E α} {tr : Trace K V C} {t : Turn} {e : Event K V C}

namespace Alongside

omit [DecidableEq K] in
theorem get (h : Alongside may late s b) {i : Nat} {q : Proc K V C E α} (hq : b.procs[i]? = some q) :
    ∃ p, s.procs[i]? = some p ∧ CutOff may late i p q := by
  have hi := (List.getElem?_eq_some_iff.mp hq).1
  have hp := List.getElem?_eq_getElem (h.length ▸ hi)
  exact ⟨_, hp, h.procs i _ q hp hq⟩

omit [DecidableEq K] in
/-- One handler changes, in both pools. -/
theorem set (h : Alongside may late s b) {i : Nat} {p' q' : Proc K V C E α} (hpq : CutOff may late i p' q')
    (st : Store K V) : Alongside may late ⟨st, s.procs.set i p'⟩ ⟨st, b.procs.set i q'⟩ where
  store := rfl
  length := by simpa using h.length
  procs j p q hp hq := by
    rcases getElem?_set_cases hp with ⟨rfl, rfl⟩ | ⟨hne, hp⟩ <;>
      rcases getElem?_set_cases hq with ⟨hj, rfl⟩ | ⟨hne', hq⟩
    · exact hpq
    · exact absurd rfl hne'
    · exact absurd hj hne
    · exact h.procs j p q hp hq

/-- **The step lemma**: whatever happens with timeouts can happen without. -/
theorem step (h : Alongside may late s b) (hs : b.step t = some (b', e)) :
    ∃ s', s.step t = some (s', e) ∧ Alongside may late s' b' := by
  cases t with
  | main i =>
    obtain ⟨q, q', hq, hm, hqs⟩ := Pool.main_of_step hs
    obtain ⟨p, hp, rfl | ⟨-, -, rfl⟩⟩ := h.get hq
    · refine ⟨⟨b'.store, s.procs.set i q'⟩, ?_, ?_⟩
      · simp only [Pool.step, hp, Option.bind_some, h.store, hm, Option.map_some]
      · have hb : b' = ⟨b'.store, b.procs.set i q'⟩ := by rw [← hqs]
        exact hb ▸ h.set (.inl rfl) _
    · cases hm
  | task i j =>
    obtain ⟨q, q', hq, ht, hst, hqs⟩ := Pool.task_of_step hs
    obtain ⟨p, hp, hpq⟩ := h.get hq
    obtain ⟨l, hb, rfl⟩ := Proc.background_of_task ht
    have hloc : p.loc = q.loc := by rcases hpq with rfl | ⟨-, -, rfl⟩ <;> rfl
    have hcut : CutOff may late i ⟨p.prog, l⟩ ⟨q.prog, l⟩ := by
      rcases hpq with rfl | ⟨hmay, hopen, rfl⟩
      · exact .inl rfl
      · exact .inr ⟨hmay, hopen, rfl⟩
    refine ⟨⟨b'.store, s.procs.set i ⟨p.prog, l⟩⟩, ?_, ?_⟩
    · simp only [Pool.step, hp, Option.bind_some, Proc.task, hloc, hb, Option.map_some, h.store, hst]
    · have hb' : b' = ⟨b'.store, b.procs.set i ⟨q.prog, l⟩⟩ := by rw [← hqs]
      exact hb' ▸ h.set hcut _

end Alongside

/-- A run after a run with timeouts. -/
theorem Timed.trans {tr' : Trace K V C} (h : Timed may late s₀ tr b) (h' : Run b tr' b') :
    Timed may late s₀ (tr ++ tr') b' := by
  induction h' with
  | nil => simpa using h
  | snoc _ hs ih =>
    rw [← List.append_assoc]
    exact .snoc ih hs

/-- Turns, then handler `i` is cut off, and other turns. -/
def Pool.execCut (late : α) (s : Pool K V C E α) (ts : List Turn) (i : Nat) (ts' : List Turn) :
    Option (Trace K V C × Pool K V C E α) :=
  (s.exec ts).bind fun x => (x.2.cut late i).bind fun b => (b.exec ts').map fun y => (x.1 ++ y.1, y.2)

/-- A run of given turns, with a handler that is cut off between them, and with a given property. -/
theorem timed_of_execCut {i : Nat} (hmay : may i) (ts ts' : List Turn) (q : Trace K V C × Pool K V C E α → Bool)
    (h : (s.execCut late ts i ts').any q = true) : ∃ tr b, Timed may late s tr b ∧ q (tr, b) = true := by
  obtain ⟨⟨tr, b⟩, hexec, hq⟩ := (Option.any_eq_true q _).mp h
  simp only [Pool.execCut, Option.bind_eq_some_iff, Option.map_eq_some_iff, Prod.mk.injEq] at hexec
  obtain ⟨⟨tr₁, s₁⟩, h₁, b₁, hcut, ⟨tr₂, b₂⟩, h₂, rfl, rfl⟩ := hexec
  exact ⟨_, _, ((Timed.nil.trans (exec_run h₁)).drop hmay hcut).trans (exec_run h₂), hq⟩

/-- **A run with timeouts is a run without**, in which some handlers are late. -/
theorem Timed.run (h : Timed may late s₀ tr b) : ∃ s, Run s₀ tr s ∧ Alongside may late s b := by
  induction h with
  | nil =>
    refine ⟨s₀, .nil, rfl, rfl, fun i p q hp hq => .inl ?_⟩
    exact Option.some.inj (hq.symm.trans hp)
  | snoc _ hs ih =>
    obtain ⟨s, hrun, halong⟩ := ih
    obtain ⟨s', hs', halong'⟩ := halong.step hs
    exact ⟨s', hrun.snoc hs', halong'⟩
  | @drop tr b b' i _ hmay hcut ih =>
    obtain ⟨s, hrun, halong⟩ := ih
    obtain ⟨q, hq, hopen, rfl⟩ := Pool.cut_cases hcut
    obtain ⟨p, hp, rfl | ⟨-, -, rfl⟩⟩ := halong.get hq
    · obtain ⟨hi, hqi⟩ := List.getElem?_eq_some_iff.mp hp
      have hself : s.procs.set i q = s.procs := hqi ▸ List.set_getElem_self hi
      have hcut : CutOff may late i q ⟨.ret late, q.loc⟩ := .inr ⟨hmay, hopen, rfl⟩
      have hset := halong.set hcut s.store
      rw [hself] at hset
      exact ⟨s, hrun, halong.store ▸ hset⟩
    · exact absurd rfl (hopen late)

/-- Orderly handlers stay so. -/
theorem Timed.ordered (h : Timed may late s₀ tr b) (hs : ∀ p ∈ s₀.procs, p.Ordered) : ∀ p ∈ b.procs, p.Ordered := by
  induction h with
  | nil => exact hs
  | snoc _ hstep ih => exact ordered_step hstep ih
  | drop _ _ hcut ih =>
    obtain ⟨q, -, -, rfl⟩ := Pool.cut_cases hcut
    exact forall_mem_set ih (.returned rfl)

end Async
