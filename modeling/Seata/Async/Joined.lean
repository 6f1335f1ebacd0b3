import Seata.Async.Completion

/-!
# Tasks that are joined

A handler that joins the tasks that it spawns, in order, before its next storage call (`Prog.Joins`): when it saves
something its tasks have ended, and the trace shows how.

- `Run.each`: what the turns keep of a handler and of the trace holds along every run;
- `Run.put_attested`: **before a save every spawned call has ended**, as the trace attests;
- `Script.Accounts`: a script that may save something because of the calls that it has spawned before;
- `Run.accounts`: if the attested calls justify what the handlers save, then all that is in the store is justified by
  the trace.
-/

namespace Async

variable {K V C E α β : Type}

/-! ## Joining before the next storage call -/

/-- The tasks `hs` are left to be joined, in this order, before the next storage call. -/
inductive Prog.Joins : List Nat → Prog K V C E α → Prop
  | ret {a : α} : Joins [] (.ret a)
  | get {k : K} {f : Except E (Option V) → Prog K V C E α} (rest : ∀ r, Joins [] (f r)) : Joins [] (.ask (.get k) f)
  | put {k : K} {v : V} {f : Except E Unit → Prog K V C E α} (rest : ∀ r, Joins [] (f r)) :
      Joins [] (.ask (.put k v) f)
  | now {hs : List Nat} {f : Int → Prog K V C E α} (rest : ∀ t, Joins hs (f t)) : Joins hs (.ask .now f)
  | newId {hs : List Nat} {f : String → Prog K V C E α} (rest : ∀ x, Joins hs (f x)) : Joins hs (.ask .newId f)
  | semaphore {hs : List Nat} {n : Nat} {f : Unit → Prog K V C E α} (rest : Joins hs (f ())) :
      Joins hs (.ask (.semaphore n) f)
  | acquire {hs : List Nat} {f : Unit → Prog K V C E α} (rest : Joins hs (f ())) : Joins hs (.ask .acquire f)
  | spawn {hs : List Nat} {c : C} {f : Nat → Prog K V C E α} (rest : ∀ h, Joins (hs ++ [h]) (f h)) :
      Joins hs (.ask (.spawn c) f)
  | join {h : Nat} {hs : List Nat} {f : Option Bool → Prog K V C E α} (rest : ∀ r, Joins hs (f r)) :
      Joins (h :: hs) (.ask (.join h) f)

theorem Prog.Joins.map (g : α → β) : ∀ {hs : List Nat} {p : Prog K V C E α}, p.Joins hs →
    (p >>= fun a => .ret (g a)).Joins hs
  | _, _, .ret => .ret
  | _, _, .get rest => .get fun r => (rest r).map g
  | _, _, .put rest => .put fun r => (rest r).map g
  | _, _, .now rest => .now fun t => (rest t).map g
  | _, _, .newId rest => .newId fun x => (rest x).map g
  | _, _, .semaphore rest => .semaphore (rest.map g)
  | _, _, .acquire rest => .acquire (rest.map g)
  | _, _, .spawn rest => .spawn fun h => (rest h).map g
  | _, _, .join rest => .join fun r => (rest r).map g

namespace Fallible

/-- The tasks that a fallible handler has left to join. -/
def Joins (hs : List Nat) (x : Fallible K V C E α) : Prop := x.run.Joins hs

theorem closed_joins : Closed fun _ (x : Fallible K V C E _) => Joins [] x where
  pure _ := .ret
  throw _ := .ret
  get h := by
    refine .get fun r => ?_
    cases r with
    | error e => exact .ret
    | ok v => exact h v
  put h := by
    refine .put fun r => ?_
    cases r with
    | error e => exact .ret
    | ok _ => exact h
  now h := .now h
  newId h := .newId h
  map {_ _ x} g h := by
    rw [Joins, run_map]
    exact Prog.Joins.map _ h

section Open

variable {hs : List Nat}

theorem joins_now {f : Int → Fallible K V C E α} (h : ∀ t, Joins hs (f t)) : Joins hs (now >>= f) := .now h

theorem joins_semaphore {n : Nat} {f : Unit → Fallible K V C E α} (h : Joins hs (f ())) :
    Joins hs (semaphore n >>= f) := .semaphore h

theorem joins_acquire {f : Unit → Fallible K V C E α} (h : Joins hs (f ())) : Joins hs (acquire >>= f) := .acquire h

theorem joins_spawn {c : C} {f : Nat → Fallible K V C E α} (h : ∀ i, Joins (hs ++ [i]) (f i)) :
    Joins hs (spawn c >>= f) := .spawn h

theorem joins_join {i : Nat} {f : Option Bool → Fallible K V C E α} (h : ∀ r, Joins hs (f r)) :
    Joins (i :: hs) (join i >>= f) := .join h

end Open

end Fallible

/-! ## What the trace shows of a task -/

/-- What handler `i` has spawned. -/
def spawnsOf (i : Nat) (tr : Trace K V C) : List C := tr.filterMap fun x => if x.1 = .main i then x.2.spawn? else none

theorem spawn?_hidden {e : Event K V C} (h : e.visible = false) : e.spawn? = none := by
  cases e <;> first | rfl | cases h

theorem spawnsOf_snoc (i : Nat) (tr : Trace K V C) (x : Turn × Event K V C) :
    spawnsOf i (tr ++ [x]) = spawnsOf i tr ++ ((if x.1 = .main i then x.2.spawn? else none).toList) := by
  rw [spawnsOf, List.filterMap_append]
  cases h : (if x.1 = .main i then x.2.spawn? else none) <;> simp [spawnsOf, h]

/-- A task of handler `i` for the call has ended, and the trace shows its ending. -/
def Attested (tr : Trace K V C) (i : Nat) (env : Env C E) (c : C) : Prop :=
  match (env.call c).verdict with
  | some true => ∃ j, (.task i j, .post c true) ∈ tr
  | _ => ∃ j, (.task i j, .post c false) ∈ tr ∨ (.task i j, .panic c) ∈ tr

theorem Attested.mono {tr tr' : Trace K V C} {i : Nat} {env : Env C E} {c : C} (hsub : ∀ x ∈ tr, x ∈ tr')
    (h : Attested tr i env c) : Attested tr' i env c := by
  unfold Attested at h ⊢
  split at h
  · exact h.imp fun j => hsub _
  · exact h.imp fun j => Or.imp (hsub _) (hsub _)

/-- An attempt that ends its task shows the ending. -/
theorem background_attests {l l' : Local C E} {j : Nat} {e : Event K V C} (h : background l j = some (l', e)) (i : Nat)
    (tr : Trace K V C) : l'.env = l.env ∧ l'.tasks.map Task.call = l.tasks.map Task.call ∧
      ∀ t ∈ l'.tasks, t.finished = true → t ∈ l.tasks ∨ Attested (tr ++ [(.task i j, e)]) i l.env t.call := by
  unfold background at h
  split at h
  · cases h
  · rename_i t ht
    split at h
    · cases h
    · split at h
      · cases h
        refine ⟨rfl, map_call_set ht rfl, fun u hu hf => ?_⟩
        rcases List.mem_or_eq_of_mem_set hu with hu | rfl
        · exact .inl hu
        · simp_all
      · dsimp only at h
        -- the ending of the call is the event of the turn
        have hlast {e' : Event K V C} (he : e' = e) (hshow : Attested (tr ++ [(.task i j, e')]) i l.env t.call) :
            ∀ u ∈ l.tasks.set j { t with finished := true }, u.finished = true →
              u ∈ l.tasks ∨ Attested (tr ++ [(.task i j, e)]) i l.env u.call := by
          intro u hu _
          rcases List.mem_or_eq_of_mem_set hu with hu | rfl
          · exact .inl hu
          · exact .inr (he ▸ hshow)
        split at h <;> rename_i hend <;> cases h <;> refine ⟨rfl, map_call_set ht rfl, hlast rfl ?_⟩ <;>
          simp only [Attested, Outcome.verdict, hend, List.mem_append, List.mem_singleton]
        · exact ⟨j, .inr rfl⟩
        · exact ⟨j, .inl (.inr rfl)⟩
        · exact ⟨j, .inr (.inr rfl)⟩

/-- An ended task is left alone. -/
theorem background_ended {l l' : Local C E} {j n : Nat} {e : Event K V C} {t : Task C}
    (h : background l j = some (l', e)) (ht : l.tasks[n]? = some t) (hf : t.finished = true) :
    l'.tasks[n]? = some t := by
  obtain ⟨u, hu, hrunning, hcases⟩ := background_cases h
  have hne : j ≠ n := by
    rintro rfl
    cases hu.symm.trans ht
    rw [hf] at hrunning
    cases hrunning
  rcases hcases with ⟨-, -, rfl⟩ | ⟨-, -, rfl⟩
  · exact (List.getElem?_set_ne hne).trans ht
  · exact (List.getElem?_set_ne hne).trans ht

/-! ## The invariant of a handler -/

/-- The tasks of a handler are the calls that it has spawned; the ended ones are attested; it has joined all of them
but `hs`. -/
structure Proc.Joining (env : Env C E) (i : Nat) (tr : Trace K V C) (p : Proc K V C E α) (hs : List Nat) : Prop where
  prog : p.prog.Joins hs
  same : p.loc.env = env
  calls : p.loc.tasks.map Task.call = spawnsOf i tr
  ended : ∀ t ∈ p.loc.tasks, t.finished = true → Attested tr i env t.call
  joined : ∀ (j : Nat) (t : Task C), p.loc.tasks[j]? = some t → j ∈ hs ∨ t.finished = true

section Steps

variable [DecidableEq K] {st st' : Store K V} {env : Env C E} {i : Nat} {tr : Trace K V C} {p p' : Proc K V C E α}
  {hs : List Nat} {e : Event K V C}

omit [DecidableEq K] in
/-- Whatever spawns nothing and leaves the tasks alone. -/
theorem Proc.Joining.goOn (h : p.Joining env i tr hs) {hs' : List Nat} {t : Turn} (hprog : p'.prog.Joins hs')
    (hsame : p'.loc.env = p.loc.env) (htasks : p'.loc.tasks = p.loc.tasks) (hspawn : t = .main i → e.spawn? = none)
    (hjoined : ∀ (j : Nat) (t : Task C), p.loc.tasks[j]? = some t → j ∈ hs' ∨ t.finished = true) :
    p'.Joining env i (tr ++ [(t, e)]) hs' where
  prog := hprog
  same := hsame.trans h.same
  calls := by
    have hnone : (if t = .main i then e.spawn? else none : Option C) = none := by
      split
      · exact hspawn ‹_›
      · rfl
    rw [spawnsOf_snoc, hnone, Option.toList_none, List.append_nil, htasks]
    exact h.calls
  ended t ht hf := (h.ended t (htasks ▸ ht) hf).mono fun x hx => List.mem_append_left _ hx
  joined := by
    rw [htasks]
    exact hjoined

/-- The step lemma of the handler. -/
theorem Proc.Joining.main (h : p.Joining env i tr hs) (hm : p.main st = some (st', p', e)) :
    ∃ hs', p'.Joining env i (tr ++ [(.main i, e)]) hs' := by
  obtain ⟨prog, l⟩ := p
  have hquiet {hs' : List Nat} (hprog : p'.prog.Joins hs') (hsame : p'.loc.env = l.env)
      (htasks : p'.loc.tasks = l.tasks) (hspawn : e.spawn? = none)
      (hjoined : ∀ (j : Nat) (t : Task C), l.tasks[j]? = some t → j ∈ hs' ∨ t.finished = true) :
      ∃ hs', p'.Joining env i (tr ++ [(.main i, e)]) hs' :=
    ⟨hs', h.goOn hprog hsame htasks (fun _ => hspawn) hjoined⟩
  cases h.prog with
  | ret => cases hm
  | get rest =>
    obtain ⟨r, l', hr, rfl⟩ := Proc.main_ask hm
    simp only [perform] at hr
    split at hr <;> cases hr
    · exact hquiet (rest _) rfl rfl rfl h.joined
    · exact hquiet (rest _) rfl rfl rfl h.joined
  | put rest =>
    obtain ⟨r, l', hr, rfl⟩ := Proc.main_ask hm
    simp only [perform] at hr
    split at hr <;> cases hr
    · exact hquiet (rest _) rfl rfl rfl h.joined
    · exact hquiet (rest _) rfl rfl rfl h.joined
  | now rest =>
    cases hm
    exact hquiet (rest _) rfl rfl rfl h.joined
  | newId rest =>
    cases hm
    exact hquiet (rest _) rfl rfl rfl h.joined
  | semaphore rest =>
    obtain ⟨r, l', hr, rfl⟩ := Proc.main_ask hm
    simp only [perform] at hr
    split at hr <;> cases hr
    exact hquiet rest rfl rfl rfl h.joined
  | acquire rest =>
    obtain ⟨r, l', hr, rfl⟩ := Proc.main_ask hm
    simp only [perform] at hr
    split at hr <;> cases hr
    exact hquiet rest rfl rfl rfl h.joined
  | @spawn _ c f rest =>
    cases hm
    refine ⟨hs ++ [l.tasks.length], rest _, h.same, ?_, fun t ht hf => ?_, fun j t ht => ?_⟩
    · rw [spawnsOf_snoc, ← h.calls]
      simp [Event.spawn?]
    · rcases List.mem_append.mp ht with ht | ht
      · exact (h.ended t ht hf).mono fun x hx => List.mem_append_left _ hx
      · cases List.mem_singleton.mp ht
        cases hf
    · rcases Nat.lt_or_ge j l.tasks.length with hj | hj
      · rw [List.getElem?_append_left hj] at ht
        exact (h.joined j t ht).imp (List.mem_append_left _) id
      · have hlt : j < (l.tasks ++ [(⟨c, 0, false⟩ : Task C)]).length := (List.getElem?_eq_some_iff.mp ht).1
        rw [List.length_append, List.length_singleton] at hlt
        exact .inl (List.mem_append_right _ (List.mem_singleton.mpr (by omega)))
  | @join n rest f k =>
    obtain ⟨r, l', hr, rfl⟩ := Proc.main_ask hm
    simp only [perform] at hr
    split at hr
    · rename_i t ht
      split at hr <;> cases hr
      rename_i hf
      refine hquiet (k _) rfl rfl rfl fun j u hu => ?_
      rcases h.joined j u hu with hj | hj
      · rcases List.mem_cons.mp hj with rfl | hj
        · cases ht.symm.trans hu
          exact .inr hf
        · exact .inl hj
      · exact .inr hj
    · cases hr

omit [DecidableEq K] in
/-- The step lemma of the tasks. -/
theorem Proc.Joining.task {j : Nat} (h : p.Joining env i tr hs) (ht : p.task j = some (p', e)) :
    p'.Joining env i (tr ++ [(.task i j, e)]) hs := by
  obtain ⟨l, hb, rfl⟩ := Proc.background_of_task ht
  obtain ⟨henv, hcalls, hended⟩ := background_attests hb i tr
  refine ⟨h.prog, henv.trans h.same, ?_, fun t ht hf => ?_, fun n t ht => ?_⟩
  · rw [spawnsOf_snoc, if_neg (by simp), Option.toList_none, List.append_nil]
    exact hcalls.trans h.calls
  · rcases hended t ht hf with hold | hnew
    · exact (h.ended t hold hf).mono fun x hx => List.mem_append_left _ hx
    · exact h.same ▸ hnew
  · have hlen : n < p.loc.tasks.length := by
      have heq := congrArg List.length hcalls
      rw [List.length_map, List.length_map] at heq
      exact heq ▸ (List.getElem?_eq_some_iff.mp ht).1
    refine (h.joined n _ (List.getElem?_eq_getElem hlen)).imp id fun hf => ?_
    cases ht.symm.trans (background_ended hb (List.getElem?_eq_getElem hlen) hf)
    exact hf

omit [DecidableEq K] in
/-- Somebody else's turn. -/
theorem Proc.Joining.other (h : p.Joining env i tr hs) {t : Turn} (ht : t.handler ≠ i) :
    p.Joining env i (tr ++ [(t, e)]) hs :=
  h.goOn h.prog rfl rfl (by rintro rfl; exact absurd rfl ht) h.joined

/-- **Before a save every spawned call has ended**, as the trace attests. -/
theorem Proc.Joining.put (h : p.Joining env i tr hs) {k : K} {v : V} (hm : p.main st = some (st', p', .put k v)) :
    ∀ c ∈ spawnsOf i tr, Attested tr i env c := by
  obtain ⟨prog, l⟩ := p
  obtain rfl : hs = [] := by
    cases h.prog with
    | ret => rfl
    | get _ => rfl
    | put _ => rfl
    | semaphore _ | acquire _ =>
      obtain ⟨r, l', hr, -⟩ := Proc.main_ask hm
      simp only [perform] at hr
      split at hr <;> cases hr
    | join _ =>
      obtain ⟨r, l', hr, -⟩ := Proc.main_ask hm
      simp only [perform] at hr
      split at hr
      · split at hr <;> cases hr
      · cases hr
    | _ => cases hm
  intro c hc
  rw [← h.calls] at hc
  obtain ⟨t, ht, rfl⟩ := List.mem_map.mp hc
  obtain ⟨j, hj⟩ := List.mem_iff_getElem?.mp ht
  exact h.ended t ht ((h.joined j t hj).resolve_left List.not_mem_nil)

end Steps

/-! ## Runs -/

section Runs

variable [DecidableEq K] {st : Store K V} {ps : List (Prog K V C E α × Env C E)} {s s' : Pool K V C E α}
  {tr : Trace K V C} {i : Nat}

/-- **What the turns keep** of a handler and of the trace holds along every run. -/
theorem Run.each {P : Trace K V C → Nat → Proc K V C E α → Prop} (h : Run s tr s')
    (hinit : ∀ i p, s.procs[i]? = some p → P [] i p)
    (hmain : ∀ {tr i p st st' p' e}, P tr i p → p.main st = some (st', p', e) → P (tr ++ [(.main i, e)]) i p')
    (htask : ∀ {tr i j p p' e}, P tr i p → p.task j = some (p', e) → P (tr ++ [(.task i j, e)]) i p')
    (hother : ∀ {tr i p t e}, P tr i p → t.handler ≠ i → P (tr ++ [(t, e)]) i p) :
    ∀ i p, s'.procs[i]? = some p → P tr i p := by
  induction h with
  | nil => exact hinit
  | @snoc tr s₁ s₂ t e _ hs ih =>
    have hset {q' : Proc K V C E α} (hqs : s₂.procs = s₁.procs.set t.handler q')
        (hq' : P (tr ++ [(t, e)]) t.handler q') : ∀ i p, s₂.procs[i]? = some p → P (tr ++ [(t, e)]) i p := by
      intro i p hp
      rw [hqs] at hp
      rcases getElem?_set_cases hp with ⟨rfl, rfl⟩ | ⟨hne, hp⟩
      · exact hq'
      · exact hother (ih i p hp) (Ne.symm hne)
    cases t with
    | main k =>
      obtain ⟨q, q', hq, hm, hqs⟩ := Pool.main_of_step hs
      exact hset hqs (hmain (ih k q hq) hm)
    | task k j =>
      obtain ⟨q, q', hq, ht, -, hqs⟩ := Pool.task_of_step hs
      exact hset hqs (htask (ih k q hq) ht)

theorem Run.joining (h : Run (Pool.init st ps) tr s) (hps : ∀ p ∈ ps, p.1.Joins []) :
    ∀ (i : Nat) (p : Proc K V C E α), s.procs[i]? = some p →
      ∃ x hs, ps[i]? = some x ∧ p.Joining x.2 i tr hs := by
  refine h.each (P := fun tr i p => ∃ x hs, ps[i]? = some x ∧ p.Joining x.2 i tr hs) ?_ ?_ ?_ ?_
  · intro i p hp
    rw [Pool.init, List.getElem?_map, Option.map_eq_some_iff] at hp
    obtain ⟨x, hx, rfl⟩ := hp
    exact ⟨x, [], hx, hps x (List.mem_of_getElem? hx), rfl, rfl, by simp [Local.init], by simp [Local.init]⟩
  · rintro tr i p st st' p' e ⟨x, hs, hx, hj⟩ hm
    obtain ⟨hs', hj'⟩ := hj.main hm
    exact ⟨x, hs', hx, hj'⟩
  · rintro tr i j p p' e ⟨x, hs, hx, hj⟩ ht
    exact ⟨x, hs, hx, hj.task ht⟩
  · rintro tr i p t e ⟨x, hs, hx, hj⟩ ht
    exact ⟨x, hs, hx, hj.other ht⟩

end Runs

/-! ## Scripts that save because of their calls -/

/-- Relying on reads within `A`, the script writes within `W` of the calls that it has spawned before; `cs` are those
spawned so far. -/
def Script.Accounts (A : K → Option V → Prop) (W : List C → K → V → Prop) : List C → Script K V C β → Prop
  | _, .done _ => True
  | cs, .read k f => ∀ v, A k v → (f v).Accounts A W cs
  | cs, .write k v x => W cs k v ∧ x.Accounts A W cs
  | cs, .spawn c x => x.Accounts A W (cs ++ [c])

namespace Script

variable {A : K → Option V → Prop} {W : List C → K → V → Prop} {cs : List C}

/-- A script that would write the same whatever it has spawned. -/
theorem Guarantees.accounts {W' : K → V → Prop} {S : C → Prop} {R : β → Prop} (hW : ∀ cs k v, W' k v → W cs k v) :
    ∀ {x : Script K V C β} {cs : List C}, x.Guarantees A W' S R → x.Accounts A W cs
  | .done _, _, _ => trivial
  | .read _ f, _, h => fun v hv => Guarantees.accounts (x := f v) hW (h v hv)
  | .write _ _ x, _, h => ⟨hW _ _ _ h.1, Guarantees.accounts (x := x) hW h.2⟩
  | .spawn _ x, _, h => Guarantees.accounts (x := x) hW h.2

/-- Go on with something that writes nothing. -/
theorem Accounts.andThen {x : Script K V C (Except E α × Core C E)}
    {f : α → Core C E → Script K V C (Except E β × Core C E)} (hf : ∀ a c cs, (f a c).Accounts A W cs) :
    ∀ {cs : List C}, x.Accounts A W cs → (x.andThen f).Accounts A W cs := by
  induction x with
  | done b =>
    intro cs _
    rcases b with ⟨e | a, c⟩
    · trivial
    · exact hf a c cs
  | read k g ih => exact fun h v hv => ih v (h v hv)
  | write k v x ih => exact fun h => ⟨h.1, ih h.2⟩
  | spawn c x ih => exact fun h => ih h

theorem Accounts.spawnAll {x : Script K V C β} : ∀ {xs cs : List C}, x.Accounts A W (cs ++ xs) →
    (Script.spawnAll xs x).Accounts A W cs
  | [], cs, h => by simpa using h
  | y :: ys, cs, h => by
    rw [spawnAll_cons]
    have h : x.Accounts A W ((cs ++ [y]) ++ ys) := by simpa using h
    exact Accounts.spawnAll h

theorem Accounts.tryRead {c : Core C E} {k : K} {f : Option V → Core C E → Script K V C (Except E α × Core C E)}
    (h : ∀ v, A k v → (f v c.io).Accounts A W cs) : (Script.tryRead c k f).Accounts A W cs := by
  unfold Script.tryRead
  split
  · trivial
  · exact h

theorem Accounts.tryWrite {c : Core C E} {k : K} {v : V} {f : Core C E → Script K V C (Except E α × Core C E)}
    (hv : W cs k v) (h : (f c.io).Accounts A W cs) : (Script.tryWrite c k v f).Accounts A W cs := by
  unfold Script.tryWrite
  split
  · trivial
  · exact ⟨hv, h⟩

end Script

section Account

variable [DecidableEq K] {st : Store K V} {ps : List (Prog K V C E α × Env C E)} {s : Pool K V C E α}
  {tr₀ tr : Trace K V C} {A : K → Option V → Prop} {W : Env C E → List C → K → V → Prop}

/-- **The store is accounted for**: if what the handlers save is within `A` as soon as the calls that they have spawned
are attested by the trace, then the store stays within `A`. -/
theorem Run.accounts (h : Run (Pool.init st ps) tr s) (hps : ∀ p ∈ ps, p.1.Joins [])
    (hst : ∀ k, A k (st.lookup k)) (hacc : ∀ p ∈ ps, (resolve p.1 (.init p.2)).Accounts A (W p.2) [])
    (hW : ∀ i e cs k v, (∀ c ∈ cs, Attested tr₀ i e c) → W e cs k v → A k (some v)) (hsub : ∀ x ∈ tr, x ∈ tr₀) :
    (∀ k, A k (s.store.lookup k)) ∧ ∀ (i : Nat) (x : Script K V C (α × Core C E)), s.todos[i]? = some x →
      ∃ p, ps[i]? = some p ∧ x.Accounts A (W p.2) (spawnsOf i tr) := by
  induction h with
  | nil =>
    refine ⟨hst, fun i x hx => ?_⟩
    simp only [Pool.todos, Pool.init, List.getElem?_map, Option.map_map, Option.map_eq_some_iff] at hx
    obtain ⟨p, hp, rfl⟩ := hx
    exact ⟨p, hp, hacc p (List.mem_of_getElem? hp)⟩
  | @snoc tr s₁ s₂ t e hr hs ih =>
    obtain ⟨hA, hx⟩ := ih fun x hm => hsub x (List.mem_append_left _ hm)
    -- the handler that moves goes on with `y`, and the others with what they had
    have hset {n : Nat} {y : Script K V C (α × Core C E)} {p : Prog K V C E α × Env C E} (hn : t = .main n)
        (hp : ps[n]? = some p) (hy : y.Accounts A (W p.2) (spawnsOf n (tr ++ [(t, e)]))) (i : Nat)
        (x : Script K V C (α × Core C E)) (hi : (s₁.todos.set n y)[i]? = some x) :
        ∃ p, ps[i]? = some p ∧ x.Accounts A (W p.2) (spawnsOf i (tr ++ [(t, e)])) := by
      rcases getElem?_set_cases hi with ⟨rfl, rfl⟩ | ⟨hne, hi⟩
      · exact ⟨p, hp, hy⟩
      · rw [spawnsOf_snoc, if_neg (by rw [hn]; simpa using Ne.symm hne), Option.toList_none, List.append_nil]
        exact hx i x hi
    have hmoves := step_moves hs
    generalize hst₂ : s₂.store = st₂ at hmoves ⊢
    generalize htodos : s₂.todos = xs₂ at hmoves ⊢
    cases hmoves with
    | silent hidden =>
      refine ⟨hA, fun i x hi => ?_⟩
      rw [spawnsOf_snoc, spawn?_hidden hidden, ite_self, Option.toList_none, List.append_nil]
      exact hx i x hi
    | @read n k f head =>
      obtain ⟨p, hp, hread⟩ := hx n _ head
      refine ⟨hA, hset rfl hp ?_⟩
      rw [spawnsOf_snoc, if_pos rfl]
      simpa [Event.spawn?] using hread _ (hA k)
    | @write n k v y head =>
      obtain ⟨p, hp, hwrite, hrest⟩ := hx n _ head
      obtain ⟨q, q', hq, hm, -⟩ := Pool.main_of_step hs
      obtain ⟨p', hs, hp', hjoining⟩ := hr.joining hps n q hq
      obtain rfl : p = p' := Option.some.inj (hp.symm.trans hp')
      have hv : A k (some v) := hW n p.2 _ k v (fun c hc => (hjoining.put hm c hc).mono fun x hm =>
        hsub x (List.mem_append_left _ hm)) hwrite
      refine ⟨Script.lookup_insert_of hA hv, hset rfl hp ?_⟩
      rw [spawnsOf_snoc, if_pos rfl]
      simpa [Event.spawn?] using hrest
    | @spawn n c y head =>
      obtain ⟨p, hp, hspawn⟩ := hx n _ head
      refine ⟨hA, hset rfl hp ?_⟩
      rw [spawnsOf_snoc, if_pos rfl]
      exact hspawn

end Account

end Async
