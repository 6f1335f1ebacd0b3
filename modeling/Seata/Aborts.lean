import Seata.Sequential
import Seata.Json
import Seata.Async.Tasks

/-!
# What an abort stops

An abort fails the branches of the record and tells nobody: a submit that has loaded the record goes on with its own
copy, retries included (`posted_after_abort`), an `addBranch` adds a prepared branch to the aborted record, and a
request with an older copy brings its prepared branches back. Nothing else does: once an abort has saved the record,
whatever is posted for the transaction comes from submits that had loaded the record before (`abort_stops`).

- `cleared g`: the transaction `g` has no prepared branch; every request but those that add a branch relies on it, keeps
  it and posts nothing for `g` (`cleared_request`);
- `Harmless`: the condition on the saves after the abort.
-/

namespace Seata

open Async

/-- The request may add a branch. -/
def Request.adds : Request → Bool
  | .addBranch _ _ _ => true
  | .branchTry _ _ _ => true
  | _ => false

/-- A load of the record by handler `i`. -/
def isLoad (i : Nat) (g : String) : Turn × Event Bytes Bytes BranchCall → Bool
  | (.main j, .get k _) => j == i && k == txnKey g
  | _ => false

/-- Handler `i` has loaded the record. -/
def LoadedIn (tr : Log) (i : Nat) (g : String) : Prop := tr.any (isLoad i g) = true

theorem loadedIn_of_mem {tr : Log} {i : Nat} {g : String} {v : Option Bytes} (h : (.main i, .get (txnKey g) v) ∈ tr) :
    LoadedIn tr i g := List.any_eq_true.mpr ⟨_, h, by simp [isLoad]⟩

/-- No branch of the transaction `g` is prepared. -/
def cleared (g : String) (o : Option GlobalTxn) : Prop := ∀ tx ∈ o, tx.gid = g → Resolved tx.branches

section Aborts

variable [SerdeJson]

/-! ## Requests on a cleared transaction -/

section Requests

variable {g gid : String} {c : Core BranchCall Error} {M : Bytes → Option Bytes → Prop}

/-- Relying on a cleared transaction, the script keeps it cleared and spawns nothing for it. -/
abbrev Clears {α : Type} (g : String) (x : Action α) : Prop :=
  Upholds Set.univ (cleared g) (cleared g) anyMark (fun c => c.gid ≠ g) x

theorem clears_submit (exec : ExecConfig) : Clears g (script (submit exec gid) c) := by
  refine upholds_submit exec (Set.mem_univ gid) (fun tx n₁ _ h => ?_) fun tx _ h x hx hg => ?_
  · refine ⟨fun tx' htx hg => ?_, fun e n₂ => ⟨fun tx' htx _ => ?_, fun n₃ tx' htx _ => ?_⟩⟩ <;> cases htx
    · exact h tx rfl hg
    · exact tx.outcomes_resolved e
    · exact tx.outcomes_resolved e
  · have hgid : x.gid = tx.gid := by
      obtain ⟨p, -, rfl⟩ := List.mem_map.mp hx
      rfl
    rw [calls_resolved (h tx rfl (hgid ▸ hg))] at hx
    cases hx

theorem clears_setBranch {status : BranchStatus} (hs : status ≠ .prepared) (branchId : String) :
    Clears g (script (setBranch status gid branchId) c) := by
  apply upholds_setBranch status branchId (Set.mem_univ gid)
  intro tx bs now _ h hbs tx' htx hg
  cases htx
  exact GlobalTxn.report_resolved hs (h tx rfl hg) hbs

/-- An abort clears its transaction, whatever it finds. -/
theorem upholds_cleared_abort {I : Option GlobalTxn → Prop} {S : BranchCall → Prop} :
    Upholds Set.univ I (cleared g) anyMark S (script (abort gid) c) := by
  apply upholds_abort (Set.mem_univ gid)
  intro tx now _ _ tx' htx _
  cases htx
  exact (tx.aborted_terminal now).resolved

/-- **A request that adds no branch** keeps a cleared transaction cleared and posts nothing for it. -/
theorem cleared_request (exec : ExecConfig) (g : String) {r : Request} (hr : r.adds = false) (w : World) :
    Clears g (script (r.handler exec) (.init w)) := by
  cases r <;> refine upholds_returning ?_
  case start =>
    apply upholds_start
    intro tx htx _
    cases htx
    exact fun b hb => nomatch hb
  case submit => exact clears_submit exec
  case abort => exact upholds_cleared_abort
  case addBranch => cases hr
  case branchTry => cases hr
  case branchSucceed => exact upholds_guarded trivial fun _ _ => clears_setBranch (by simp) _
  case branchFail => exact upholds_guarded trivial fun _ _ => clears_setBranch (by simp) _

/-- A request that adds a branch posts nothing. -/
theorem adding_request (exec : ExecConfig) {I : Option GlobalTxn → Prop} {S : BranchCall → Prop} {r : Request}
    (hr : r.adds = true) (w : World) :
    Upholds Set.univ I (fun _ => True) anyMark S (script (r.handler exec) (.init w)) := by
  cases r <;> refine upholds_returning ?_
  case addBranch => exact upholds_addBranch (Set.mem_univ _) fun _ _ _ _ _ => trivial
  case branchTry => exact upholds_guarded trivial fun _ _ => upholds_addBranch (Set.mem_univ _) fun _ _ _ _ _ => trivial
  all_goals cases hr

end Requests

/-! ## After the abort -/

/-- **After the abort** no request that adds a branch saves the record, and no request saves a copy with a prepared
branch that it had loaded before. -/
def Harmless (rs : List (Request × World)) (g : String) (before : Log) : Turn × Event Bytes Bytes BranchCall → Prop
  | (t, .put k v) => k = txnKey g → (rs[t.handler]?).all (fun r => !r.1.adds) = true ∧
    (LoadedIn before t.handler g → match fromSlice v with
      | .ok tx => Resolved tx.branches
      | .error _ => True)
  | _ => True

instance (rs : List (Request × World)) (g : String) (before : Log) (x : Turn × Event Bytes Bytes BranchCall) :
    Decidable (Harmless rs g before x) := by
  obtain ⟨t, e⟩ := x
  cases e with
  | put k v =>
    have hcopy : Decidable (match fromSlice v with
        | .ok tx => Resolved tx.branches
        | .error _ => True) :=
      match fromSlice v with
      | .ok tx => inferInstanceAs (Decidable (∀ b ∈ tx.branches, b.status ≠ .prepared))
      | .error _ => .isTrue trivial
    have hloaded : Decidable (LoadedIn before t.handler g) := inferInstanceAs (Decidable (_ = true))
    exact @instDecidableForall _ _ _ (@instDecidableAnd _ _ _ (@instDecidableForall _ _ hloaded hcopy))
  | _ => exact .isTrue trivial

/-- What is known of every store. -/
abbrev soundAt : Bytes → Option Bytes → Prop := Keeps Set.univ (fun _ => True) anyMark

/-- What is known of a store in which the transaction is cleared. -/
abbrev clearedAt (g : String) : Bytes → Option Bytes → Prop := Keeps Set.univ (cleared g) anyMark

theorem sound_of_cleared {g : String} {k : Bytes} {v : Option Bytes} (h : clearedAt g k v) : soundAt k v := by
  refine ⟨fun g' hg hk => ?_, fun _ _ _ _ => trivial⟩
  obtain ⟨o, hv, hgid, -⟩ := h.1 g' hg hk
  exact ⟨o, hv, hgid, trivial⟩

/-- The other keys say nothing about the transaction. -/
theorem cleared_elsewhere {g : String} {k : Bytes} {v : Option Bytes} (hk : k ≠ txnKey g) (h : soundAt k v) :
    clearedAt g k v := by
  refine ⟨fun g' hg hk' => ?_, fun _ _ _ _ => trivial⟩
  obtain ⟨o, hv, hgid, -⟩ := h.1 g' hg hk'
  refine ⟨o, hv, hgid, fun tx htx hg' => ?_⟩
  exact absurd (by rw [hk', ← hgid tx htx, hg']) hk

/-- An encoded record without prepared branches. -/
theorem cleared_of_resolved {g : String} {v : Bytes} (h : soundAt (txnKey g) (some v))
    (hr : ∀ tx, fromSlice v = .ok tx → Resolved tx.branches) : clearedAt g (txnKey g) (some v) := by
  refine ⟨fun g' hg hk' => ?_, fun _ _ _ _ => trivial⟩
  obtain ⟨o, hv, hgid, -⟩ := h.1 g' hg hk'
  refine ⟨o, hv, hgid, fun tx htx _ => hr tx ?_⟩
  cases htx
  obtain rfl : v = toVec tx := Option.some.inj hv
  exact SerdeJson.fromSlice_toVec tx

section Run

variable {exec : ExecConfig} {st : Kv} {rs : List (Request × World)} {g : String} {a : Nat} {w : World} {tr₁ tr₂ : Log}
  {s₁ s₂ s : Handlers Response} {v : Bytes}

/-- The script of a handler that arrives. -/
theorem serving_todo {i : Nat} {x : Action Response} (hx : (serving exec st rs).todos[i]? = some x) :
    ∃ r, rs[i]? = some r ∧ x = script (r.1.handler exec) (.init r.2) := by
  rw [serving_todos, List.getElem?_map, Option.map_eq_some_iff] at hx
  obtain ⟨r, hr, rfl⟩ := hx
  exact ⟨r, hr, rfl⟩

theorem serving_safe : ∀ x ∈ (serving exec st rs).todos, x.Safe soundAt fun _ => True := by
  intro x hx
  obtain ⟨i, hi⟩ := List.getElem?_of_mem hx
  obtain ⟨r, -, rfl⟩ := serving_todo hi
  exact safe_request exec r fun _ _ => trivial

/-- Every run keeps the store sound, and its puts are made by requests that are there; those of an abort are cleared. -/
theorem serving_sound (hst : Sound st) (ha : rs[a]? = some (.abort g, w)) (h : Run (serving exec st rs) tr₁ s) :
    Sound s.store ∧ (∀ v, (.main a, .put (txnKey g) v) ∈ tr₁ → clearedAt g (txnKey g) (some v)) ∧
      ∀ t c, (t, .spawn c) ∈ tr₁ → ∃ r, rs[t.handler]? = some r := by
  have hscripts : ∀ i : Nat, ∀ x : Action Response, (serving exec st rs).todos[i]? = some x →
      x.Guarantees soundAt (fun k v => soundAt k (some v) ∧ (i = a → clearedAt g k (some v)))
        (fun _ => ∃ r, rs[i]? = some r)
        fun _ => True := by
    intro i x hx
    obtain ⟨r, hr, rfl⟩ := serving_todo hx
    by_cases hi : i = a
    · subst hi
      obtain rfl := Option.some.inj (hr.symm.trans ha)
      refine Script.Guarantees.mono (A := soundAt) (W := fun k v => clearedAt g k (some v)) (S := fun _ => True)
        (fun _ _ h => h) (fun k v hv => ⟨sound_of_cleared hv, fun _ => hv⟩) (fun _ _ => ⟨_, hr⟩) (fun _ h => h) ?_
      exact upholds_returning upholds_cleared_abort
    · exact Script.Guarantees.mono (fun _ _ h => h) (fun k v hv => ⟨hv, fun h => absurd h hi⟩) (fun _ _ => ⟨_, hr⟩)
        (fun _ h => h) (safe_request exec r fun _ _ => trivial)
  obtain ⟨hsound, -, hputs, hspawns⟩ := h.interleaving.guarantees
    (W := fun i k v => soundAt k (some v) ∧ (i = a → clearedAt g k (some v))) (S := fun i _ => ∃ r, rs[i]? = some r)
    (R := fun _ _ => True) hst hscripts fun _ _ _ _ hv => hv.1
  exact ⟨hsound, fun v hv => (hputs _ _ _ hv).2 rfl, hspawns⟩

/-- What a request guarantees that finds the transaction cleared. -/
theorem request_clears (exec : ExecConfig) (g : String) (r : Request × World) :
    (script (r.1.handler exec) (.init r.2)).Guarantees (clearedAt g)
      (fun k v => soundAt k (some v) ∧ (r.1.adds = false → clearedAt g k (some v)))
        (fun c => c.gid ≠ g) fun _ => True := by
  cases hr : r.1.adds with
  | false =>
    exact Script.Guarantees.mono (fun _ _ h => h) (fun k v hv => ⟨sound_of_cleared hv, fun _ => hv⟩) (fun _ h => h)
      (fun _ h => h) (cleared_request exec g hr r.2)
  | true =>
    exact Script.Guarantees.mono (fun _ _ h => h) (fun k v hv => ⟨hv, fun h => by cases h⟩) (fun _ h => h)
      (fun _ h => h) (adding_request exec hr r.2)

/-- The save of the abort clears the transaction. -/
theorem cleared_after_abort (hst : Sound st) (ha : rs[a]? = some (.abort g, w)) (h₁ : Run (serving exec st rs) tr₁ s₁)
    (hs : s₁.step (.main a) = some (s₂, .put (txnKey g) v)) (k : Bytes) : clearedAt g k (s₂.store.lookup k) := by
  obtain ⟨hsound, -⟩ := serving_sound hst ha h₁
  obtain ⟨-, hput, -⟩ := serving_sound hst ha (h₁.snoc hs)
  rw [(step_moves hs).put]
  rw [Script.lookup_insert_ite]
  split
  · subst k
    exact hput v (by simp)
  · exact cleared_elsewhere ‹_› (hsound k)

/-- A handler that has not loaded the record can still rely on a cleared transaction. -/
theorem unloaded_clears (hst : Sound st) (h : Run (serving exec st rs) tr₁ s) {i : Nat} {r : Request × World}
    (hr : rs[i]? = some r) (hl : ¬ LoadedIn tr₁ i g) :
    (∃ x, s.todos[i]? = some x ∧ x.Guarantees (clearedAt g)
      (fun k v => soundAt k (some v) ∧ (r.1.adds = false → clearedAt g k (some v)))
        (fun c => c.gid ≠ g) fun _ => True) ∧
      ∀ c, (.main i, .spawn c) ∈ tr₁ → c.gid ≠ g := by
  have hi : (serving exec st rs).todos[i]? = some (script (r.1.handler exec) (.init r.2)) := by
    rw [serving_todos, List.getElem?_map, hr]
    rfl
  rcases h.interleaving.unread hst serving_safe (fun k v hk hv => cleared_elsewhere hk hv) hi
    (request_clears exec g r) with
    ⟨v, hv⟩ | hx
  · exact absurd (loadedIn_of_mem hv) hl
  · exact hx

/-- What handler `i` guarantees of its saves after the abort. -/
def savesCleared (rs : List (Request × World)) (g : String) (before : Log) (i : Nat) (k v : Bytes) : Prop :=
  soundAt k (some v) ∧ (¬ LoadedIn before i g → (rs[i]?).all (fun r => !r.1.adds) = true → clearedAt g k (some v))

/-- Every handler guarantees that, and spawns no call of the transaction unless it has loaded the record. -/
theorem guarantees_after_abort (hst : Sound st) (h : Run (serving exec st rs) tr₁ s) (i : Nat) (x : Action Response)
    (hx : s.todos[i]? = some x) : x.Guarantees (clearedAt g) (savesCleared rs g tr₁ i)
      (fun c => ¬ LoadedIn tr₁ i g → c.gid ≠ g) fun _ => True := by
  by_cases hl : LoadedIn tr₁ i g
  · have hsafe := (h.interleaving.safe hst serving_safe).2.1 x (List.mem_of_getElem? hx)
    exact Script.Guarantees.mono (fun _ _ h => sound_of_cleared h) (fun k v hv => ⟨hv, fun h => absurd hl h⟩)
      (fun _ _ h => absurd hl h) (fun _ h => h) hsafe
  · have hlt : i < rs.length := by
      have := (List.getElem?_eq_some_iff.mp hx).1
      rwa [h.interleaving.length, serving_todos, List.length_map] at this
    have hr := List.getElem?_eq_getElem hlt
    obtain ⟨⟨x', hx', hg⟩, -⟩ := unloaded_clears hst h hr hl
    obtain rfl := Option.some.inj (hx.symm.trans hx')
    exact Script.Guarantees.mono (fun _ _ h => h) (fun k v hv => ⟨hv.1, fun _ hadd => hv.2 (by simpa [hr] using hadd)⟩)
      (fun _ h _ => h) (fun _ h => h) hg

/-- A harmless save keeps the transaction cleared. -/
theorem cleared_of_harmless {t : Turn} {k : Bytes} (hh : Harmless rs g tr₁ (t, .put k v))
    (hv : savesCleared rs g tr₁ t.handler k v) : clearedAt g k (some v) := by
  by_cases hk : k = txnKey g
  · subst hk
    obtain ⟨hadd, hstale⟩ := hh rfl
    by_cases hl : LoadedIn tr₁ t.handler g
    · apply cleared_of_resolved hv.1
      intro tx htx
      have hr := hstale hl
      rw [htx] at hr
      exact hr
    · exact hv.2 hl hadd
  · exact cleared_elsewhere hk hv.1

/-- **Once an abort has saved the record**, whatever is posted for the transaction comes from submits that had loaded
the record before. -/
theorem abort_stops (exec : ExecConfig) {st : Kv} (hst : Sound st) {rs : List (Request × World)} {g : String} {a : Nat}
    {w : World} (ha : rs[a]? = some (.abort g, w)) {tr₁ tr₂ : Log} {s₁ s₂ s : Handlers Response} {v : Bytes}
    (h₁ : Run (serving exec st rs) tr₁ s₁) (hs : s₁.step (.main a) = some (s₂, .put (txnKey g) v)) (h₂ : Run s₂ tr₂ s)
    (hh : ∀ x ∈ tr₂, Harmless rs g tr₁ x) {t : Turn} {e : Event Bytes Bytes BranchCall} {c : BranchCall}
    (hm : (t, e) ∈ tr₂) (hc : e.attempts c) (hg : c.gid = g) : LoadedIn tr₁ t.handler g := by
  have hrun := h₁.snoc hs
  have hload : ∀ i, LoadedIn (tr₁ ++ [(.main a, .put (txnKey g) v)]) i g ↔ LoadedIn tr₁ i g := by
    intro i
    simp [LoadedIn, isLoad]
  by_contra hl
  have hl' : ¬ LoadedIn (tr₁ ++ [(.main a, .put (txnKey g) v)]) t.handler g := fun h => hl ((hload _).mp h)
  have hspawn := (hrun.trans h₂).spawned_before (List.mem_append_right _ hm) hc
  rcases List.mem_append.mp hspawn with hspawn | hspawn
  · obtain ⟨r, hr⟩ := (serving_sound hst ha hrun).2.2 _ _ hspawn
    exact (unloaded_clears hst hrun hr hl').2 c hspawn hg
  · obtain ⟨-, -, -, hspawns⟩ := h₂.interleaving.guarantees
        (S := fun i c => ¬ LoadedIn (tr₁ ++ [(.main a, .put (txnKey g) v)]) i g → c.gid ≠ g)
      (R := fun _ _ => True) (cleared_after_abort hst ha h₁ hs) (guarantees_after_abort hst hrun) fun t k v hp hv => by
        refine cleared_of_harmless (hh _ hp) ⟨hv.1, fun hl => hv.2 fun h => hl ((hload _).mp h)⟩
    exact hspawns _ c hspawn hl' hg

end Run

end Aborts

section Example

attribute [local instance] Json.serdeJson

/-- An attempt of a branch action of the transaction. -/
def isPost (g : String) : Turn × Event Bytes Bytes BranchCall → Bool
  | (_, .post c _) => c.gid == g
  | _ => false

def Request.isStart : Request → Bool
  | .start _ _ _ => true
  | _ => false

/-- A submit is in flight when the abort comes. -/
def abortInFlight : List (Request × World) :=
  [(.start "g" "" [], .calm 1), (.addBranch "g" "b" "u", .calm 2), (.submit "g", .calm 3), (.abort "g", .calm 4)]

/-- A submit that has spawned its calls posts them after the abort has returned. -/
theorem posted_after_abort : ¬ ∀ (exec : ExecConfig) (rs : List (Request × World)) (g : String) (a : Nat) (w : World)
    (tr₁ tr₂ : Log) (s₁ s : Handlers Response), (∀ r ∈ rs, r.1.gid r.2 = g) → rs.countP (fun r => r.1.isStart) = 1 →
      rs[a]? = some (.abort g, w) → Run (serving exec ∅ rs) tr₁ s₁ → (∃ p, s₁.procs[a]? = some p ∧ p.prog.isOk = true) →
        Run s₁ tr₂ s → ∀ t c ok, (t, .post c ok) ∈ tr₂ → c.gid ≠ g := by
  intro hall
  have hexec : ((serving .default ∅ abortInFlight).exec
      [.main 0, .main 0, .main 1, .main 1, .main 1, .main 2, .main 2, .main 2, .main 2, .main 2, .main 2, .main 3,
        .main 3, .main 3]).any (fun x => (x.2.procs[3]?).any (fun p => p.prog.isOk) &&
          (x.2.exec [.task 2 0]).any fun y => y.1.any (isPost "g")) = true := by decide +kernel
  obtain ⟨tr₁, s₁, h₁, hq⟩ := run_of_exec _ _ hexec
  obtain ⟨hok, hpost⟩ := Bool.and_eq_true_iff.mp hq
  obtain ⟨p, hp, hret⟩ := (Option.any_eq_true _ _).mp hok
  obtain ⟨tr₂, s, h₂, hq₂⟩ := run_of_exec _ _ hpost
  obtain ⟨⟨t, e⟩, hm, he⟩ := List.any_eq_true.mp hq₂
  cases e with
  | post c ok =>
    refine hall .default abortInFlight "g" 3 (.calm 4) tr₁ tr₂ s₁ s ?_ rfl rfl h₁ ⟨p, hp, hret⟩ h₂ t c ok hm
      (beq_iff_eq.mp he)
    simp [abortInFlight, Request.gid]
  | _ => cases he

/-- The submit that is in flight posts its call and saves its outcomes after the abort: it had loaded the record
before. -/
theorem abort_stops_inFlight : ∃ tr₁ tr₂ s₁ s₂ s v t c ok, Run (serving .default ∅ abortInFlight) tr₁ s₁ ∧
    s₁.step (.main 3) = some (s₂, .put (txnKey "g") v) ∧ Run s₂ tr₂ s ∧ (t, .post c ok) ∈ tr₂ ∧ c.gid = "g" ∧
      LoadedIn tr₁ t.handler "g" := by
  have hexec : ((serving .default ∅ abortInFlight).exec
      [.main 0, .main 0, .main 1, .main 1, .main 1, .main 2, .main 2, .main 2, .main 2, .main 2, .main 2,
        .main 3, .main 3]).any
        (fun x => (x.2.step (.main 3)).any fun y => y.2.put?.any (fun p => p.1 == txnKey "g") &&
          (y.1.exec [.task 2 0, .main 2, .main 2, .main 2]).any fun z =>
            z.1.any (isPost "g") && z.1.all fun e => decide (Harmless abortInFlight "g" x.1 e)) = true := by
    decide +kernel
  obtain ⟨tr₁, s₁, h₁, hq⟩ := run_of_exec _ _ hexec
  obtain ⟨⟨s₂, e⟩, hs, hq⟩ := (Option.any_eq_true _ _).mp hq
  obtain ⟨hput, hq⟩ := Bool.and_eq_true_iff.mp hq
  obtain ⟨tr₂, s, h₂, hq⟩ := run_of_exec _ _ hq
  obtain ⟨hpost, hharmless⟩ := Bool.and_eq_true_iff.mp hq
  obtain ⟨⟨t, e'⟩, hm, he'⟩ := List.any_eq_true.mp hpost
  have hh : ∀ x ∈ tr₂, Harmless abortInFlight "g" tr₁ x :=
    fun x hx => of_decide_eq_true (List.all_eq_true.mp hharmless x hx)
  cases e with
  | put k v =>
    obtain rfl : k = txnKey "g" := beq_iff_eq.mp hput
    cases e' with
    | post c ok =>
      have hg : c.gid = "g" := beq_iff_eq.mp he'
      exact ⟨tr₁, tr₂, s₁, s₂, s, v, t, c, ok, h₁, hs, h₂, hm, hg,
        abort_stops .default sound_empty (a := 3) (w := .calm 4) rfl h₁ hs h₂ hh hm rfl hg⟩
    | _ => cases he'
  | _ => cases hput

end Example

end Seata
