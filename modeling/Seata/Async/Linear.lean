import Mathlib.Data.List.Basic
import Mathlib.Data.List.Nodup

/-!
# Calls made of atomic statements

A call is a program of atomic statements on a shared state (`Code`). Calls run concurrently: a `Run` lets any of them
perform its next statement, one after the other.

The calls that have returned are linearizable when they could have been performed atomically, in one order that agrees
with their real-time order, with the same results and the same state (`Linearizable`). A run keeps a `Linearization`
when each statement either changes nothing and does not return (`Linearization.silent`), or does what the atomic call
does (`Linearization.commit`).
-/

namespace Async.Linear

variable {S : Type} {A : S → Type} {σ β γ : Type}

/-- A result, or a statement and what to do with its answer. -/
inductive Code (S : Type) (A : S → Type) (β : Type) : Type
  | ret (b : β)
  | ask (s : S) (k : A s → Code S A β)

namespace Code

def bind : Code S A β → (β → Code S A γ) → Code S A γ
  | .ret b, f => f b
  | .ask s k, f => .ask s fun a => (k a).bind f

instance : Monad (Code S A) where
  pure := .ret
  bind := bind

/-- Perform one statement. -/
def perform (s : S) : Code S A (A s) := .ask s .ret

/-- The result of a call that has returned. -/
def result : Code S A β → Option β
  | .ret b => some b
  | .ask _ _ => none

theorem eq_ret_of_result : ∀ {x : Code S A β} {b : β}, x.result = some b → x = .ret b
  | .ret _, _, h => congrArg Code.ret (Option.some.inj h)

theorem eq_ret_of_results : ∀ {xs : List (Code S A β)} {bs : List β}, xs.map result = bs.map some → xs = bs.map .ret
  | [], [], _ => rfl
  | x :: xs, b :: bs, h => by
    simp only [List.map_cons, List.cons.injEq] at h
    rw [eq_ret_of_result h.1, eq_ret_of_results h.2]
    rfl

end Code

/-- A statement with its answer. -/
abbrev Performed (A : S → Type) : Type := (s : S) × A s

/-- What a run shows: which call performed which statement, and the answer. -/
abbrev Trace (A : S → Type) : Type := List (Nat × Performed A)

/-- The shared state and the calls in flight, or returned. -/
structure Config (S : Type) (A : S → Type) (σ β : Type) where
  state : σ
  calls : List (Code S A β)

/-- What the statements answer and do. -/
abbrev Semantics (A : S → Type) (σ : Type) : Type := (s : S) → σ → A s × σ

section Runs

variable (sem : Semantics A σ)

/-- Call `i` performs its next statement. -/
def Config.step (c : Config S A σ β) (i : Nat) : Option (Config S A σ β × Performed A) :=
  match c.calls[i]? with
  | some (.ask s k) =>
    let r := sem s c.state
    some (⟨r.2, c.calls.set i (k r.1)⟩, ⟨s, r.1⟩)
  | _ => none

/-- **Any interleaving** of the statements. -/
inductive Run (c₀ : Config S A σ β) : Trace A → Config S A σ β → Prop
  | nil : Run c₀ [] c₀
  | snoc {tr : Trace A} {c c' : Config S A σ β} {i : Nat} {x : Performed A} :
      Run c₀ tr c → c.step sem i = some (c', x) → Run c₀ (tr ++ [(i, x)]) c'

/-- The run of a list of turns. -/
def Config.exec (c : Config S A σ β) : List Nat → Option (Trace A × Config S A σ β)
  | [] => some ([], c)
  | i :: is => (c.step sem i).bind fun r => (r.1.exec is).map fun q => ((i, r.2) :: q.1, q.2)

variable {sem}

theorem Run.trans {c₀ c c' : Config S A σ β} {tr tr' : Trace A} (h : Run sem c₀ tr c) (h' : Run sem c tr' c') :
    Run sem c₀ (tr ++ tr') c' := by
  induction h' with
  | nil => simpa using h
  | snoc _ hs ih => rw [← List.append_assoc]; exact .snoc ih hs

theorem exec_run : ∀ {c c' : Config S A σ β} {is : List Nat} {tr : Trace A}, c.exec sem is = some (tr, c') →
    Run sem c tr c'
  | c, c', [], tr, h => by
    simp only [Config.exec, Option.some.injEq, Prod.mk.injEq] at h
    obtain ⟨rfl, rfl⟩ := h
    exact .nil
  | c, c', i :: is, tr, h => by
    simp only [Config.exec, Option.bind_eq_some_iff, Option.map_eq_some_iff, Prod.mk.injEq] at h
    obtain ⟨⟨c₁, x⟩, h₁, ⟨tr₂, c₂⟩, h₂, rfl, rfl⟩ := h
    exact (Run.snoc .nil h₁).trans (exec_run h₂)

/-- A run of given turns with a given property. -/
theorem run_of_exec {c : Config S A σ β} (is : List Nat) (q : Trace A × Config S A σ β → Bool)
    (h : (c.exec sem is).any q = true) :
    ∃ tr c', Run sem c tr c' ∧ q (tr, c') = true := by
  obtain ⟨⟨tr, c'⟩, he, hq⟩ := (Option.any_eq_true q _).mp h
  exact ⟨tr, c', exec_run he, hq⟩

/-- **All that a step can do.** -/
theorem step_cases {c c' : Config S A σ β} {i : Nat} {x : Performed A} (h : c.step sem i = some (c', x)) :
    ∃ s k, c.calls[i]? = some (.ask s k) ∧ x = ⟨s, (sem s c.state).1⟩ ∧
      c' = ⟨(sem s c.state).2, c.calls.set i (k (sem s c.state).1)⟩ := by
  unfold Config.step at h
  split at h
  · rename_i s k hc
    simp only [Option.some.injEq, Prod.mk.injEq] at h
    obtain ⟨rfl, rfl⟩ := h
    exact ⟨s, k, hc, rfl, rfl⟩
  · cases h

end Runs

/-! ## Linearizations -/

/-- Call `i` ends before call `j` begins: its statements all come before those of `j`. -/
def Precedes {ε : Type} (tr : List (Nat × ε)) (i j : Nat) : Prop :=
  ∀ (m n : Nat) (x y : ε), tr[m]? = some (i, x) → tr[n]? = some (j, y) → m < n

/-- The calls performed atomically, one after the other: their results, and the state that they leave. -/
def atomically (spec : Nat → σ → β × σ) : List Nat → σ → List (Nat × β) × σ
  | [], st => ([], st)
  | i :: is, st =>
    let r := spec i st
    let q := atomically spec is r.2
    ((i, r.1) :: q.1, q.2)

theorem atomically_append (spec : Nat → σ → β × σ) (js : List Nat) :
    ∀ (is : List Nat) (st : σ), atomically spec (is ++ js) st =
    ((atomically spec is st).1 ++ (atomically spec js (atomically spec is st).2).1,
      (atomically spec js (atomically spec is st).2).2)
  | [], _ => rfl
  | i :: is, st => by
    simp only [List.cons_append, atomically, atomically_append spec js is]

/-- An order in which the calls that have returned could have been performed atomically. -/
structure Linearization (spec : Nat → σ → β × σ) (st₀ : σ) (tr : Trace A) (c : Config S A σ β)
    (order : List Nat) : Prop where
  nodup : order.Nodup
  stepped : ∀ i ∈ order, ∃ x, (i, x) ∈ tr
  returned : ∀ i, i ∈ order ↔ ∃ b, c.calls[i]? = some (.ret b)
  realTime : order.Pairwise fun i j => ¬ Precedes tr j i
  results : ∀ i b, (i, b) ∈ (atomically spec order st₀).1 → c.calls[i]? = some (.ret b)
  state : (atomically spec order st₀).2 = c.state

/-- **The returned calls are linearizable.** -/
def Linearizable (spec : Nat → σ → β × σ) (st₀ : σ) (tr : Trace A) (c : Config S A σ β) : Prop :=
  ∃ order, Linearization spec st₀ tr c order

section Linearization

variable {spec : Nat → σ → β × σ} {st₀ : σ} {tr : Trace A} {c : Config S A σ β} {order : List Nat} {i : Nat}
  {x : Performed A}

theorem Precedes.of_append {ε : Type} {tr tr' : List (Nat × ε)} {i j : Nat} (h : Precedes (tr ++ tr') i j) :
    Precedes tr i j := by
  intro m n x y hm hn
  have hlt {l : Nat} {z : Nat × ε} (hl : tr[l]? = some z) : (tr ++ tr')[l]? = some z := by
    rw [List.getElem?_append_left (List.getElem?_eq_some_iff.mp hl).1, hl]
  exact h m n x y (hlt hm) (hlt hn)

/-- A call with a statement before the last one does not come after the call of the last one. -/
theorem not_precedes_last {ε : Type} {tr : List (Nat × ε)} {i j : Nat} {x y : ε} (hj : (j, y) ∈ tr) :
    ¬ Precedes (tr ++ [(i, x)]) i j := by
  intro h
  obtain ⟨m, hm⟩ := List.mem_iff_getElem?.mp hj
  have hlt : m < tr.length := (List.getElem?_eq_some_iff.mp hm).1
  have := h tr.length m x y (by simp) (by rw [List.getElem?_append_left hlt, hm])
  omega

/-- Nothing has returned. -/
theorem Linearization.nil {calls : List (Code S A β)} (h : ∀ (i : Nat) (b : β), calls[i]? ≠ some (.ret b)) :
    Linearization spec st₀ ([] : Trace A) ⟨st₀, calls⟩ [] where
  nodup := List.nodup_nil
  stepped _ h := by cases h
  returned i := by simp [h]
  realTime := List.Pairwise.nil
  results _ _ h := by cases h
  state := rfl

/-- A statement that changes nothing, and does not return. -/
theorem Linearization.silent (h : Linearization spec st₀ tr c order) {s s' : S} {k : A s → Code S A β}
    {k' : A s' → Code S A β} (hi : c.calls[i]? = some (.ask s k)) :
    Linearization spec st₀ (tr ++ [(i, x)]) ⟨c.state, c.calls.set i (.ask s' k')⟩ order where
  nodup := h.nodup
  stepped j hj := by
    obtain ⟨y, hy⟩ := h.stepped j hj
    exact ⟨y, List.mem_append_left _ hy⟩
  returned j := by
    rw [h.returned j]
    by_cases hij : i = j
    · subst hij
      rw [List.getElem?_set_self (List.getElem?_eq_some_iff.mp hi).1, hi]
      simp
    · rw [List.getElem?_set_ne hij]
  realTime := h.realTime.imp fun hn hp => hn hp.of_append
  results j b hb := by
    have hj := h.results j b hb
    have hij : i ≠ j := by
      rintro rfl
      rw [hi] at hj
      cases hj
    rw [List.getElem?_set_ne hij, hj]
  state := h.state

/-- A statement that does what the atomic call does, and returns. -/
theorem Linearization.commit (h : Linearization spec st₀ tr c order) {s : S} {k : A s → Code S A β}
    (hi : c.calls[i]? = some (.ask s k)) {b : β} {st' : σ} (hspec : spec i c.state = (b, st')) :
    Linearization spec st₀ (tr ++ [(i, x)]) ⟨st', c.calls.set i (.ret b)⟩ (order ++ [i]) := by
  have hlen : i < c.calls.length := (List.getElem?_eq_some_iff.mp hi).1
  have hnew : i ∉ order := by
    rw [h.returned i, hi]
    simp
  have hlast : atomically spec (order ++ [i]) st₀ = ((atomically spec order st₀).1 ++ [(i, b)], st') := by
    simp only [atomically_append, h.state, atomically, hspec]
  constructor
  · exact List.nodup_append.mpr ⟨h.nodup, List.nodup_singleton i, fun j hj k hk => by
      rw [List.mem_singleton.mp hk]
      rintro rfl
      exact hnew hj⟩
  · intro j hj
    rcases List.mem_append.mp hj with hj | hj
    · obtain ⟨y, hy⟩ := h.stepped j hj
      exact ⟨y, List.mem_append_left _ hy⟩
    · rw [List.mem_singleton.mp hj]
      exact ⟨x, List.mem_append_right _ (List.mem_singleton_self _)⟩
  · intro j
    rw [List.mem_append, h.returned j, List.mem_singleton]
    by_cases hij : i = j
    · subst hij
      rw [List.getElem?_set_self hlen]
      simp
    · rw [List.getElem?_set_ne hij]
      simp [Ne.symm hij]
  · rw [List.pairwise_append]
    refine ⟨h.realTime.imp fun hn hp => hn hp.of_append, List.pairwise_singleton _ _, fun j hj k hk => ?_⟩
    rw [List.mem_singleton.mp hk]
    obtain ⟨y, hy⟩ := h.stepped j hj
    exact not_precedes_last hy
  · intro j b' hb
    rw [hlast] at hb
    rcases List.mem_append.mp hb with hb | hb
    · have hj := h.results j b' hb
      have hij : i ≠ j := by
        rintro rfl
        rw [hi] at hj
        cases hj
      rw [List.getElem?_set_ne hij, hj]
    · cases List.mem_singleton.mp hb
      exact List.getElem?_set_self hlen
  · rw [hlast]

end Linearization

end Async.Linear
