import Seata.Resubmission
import Seata.Async.Permits

/-!
# The parallelism of a submit

The dispatch loop of `submit` acquires a permit for every branch task before it spawns it, and the joins start after the
last of them: it keeps the discipline of a semaphore (`disciplined_submit`), whatever the record is. So the number of
running tasks is bounded, and the two loops never deadlock (`submit_parallelism`).
-/

namespace Seata

open Async

/-! ## The two loops -/

section Loops

variable {n : Nat} {cs : List BranchCall} {α : Type} (tx : GlobalTxn)

/-- The dispatch loop spawns the calls of the branches that are left, and hands on the handles that it got. -/
theorem disciplined_dispatch {K : List Nat → Server α} :
    ∀ (l : List (BranchTxn × Nat)) (a : Nat), cs.drop a = callsOf tx l →
    Fallible.Disciplined n cs (.made (a + (callsOf tx l).length) 0 false) (K (List.range' a (callsOf tx l).length)) →
    Fallible.Disciplined n cs (.made a 0 false) (dispatch tx l >>= K)
  | [], a, _, hK => by
    rw [dispatch, pure_bind]
    exact hK
  | (b, i) :: rest, a, hcs, hK => by
    by_cases hb : b.status = .prepared
    · rw [callsOf_prepared tx _ _ hb] at hcs hK
      have hcall : cs[a]? = some (branchCall tx i b) := by rw [← List.head?_drop, hcs, List.head?_cons]
      have hrest : cs.drop (a + 1) = callsOf tx rest := by rw [← List.tail_drop, hcs, List.tail_cons]
      simp only [dispatch, hb, ne_eq, not_true_eq_false, ↓reduceIte, bind_assoc, pure_bind]
      refine Fallible.disciplined_spawn hcall (disciplined_dispatch rest (a + 1) hrest ?_)
      rw [List.length_cons, List.range'_succ] at hK
      rwa [Nat.add_right_comm]
    · rw [callsOf_settled tx _ _ hb] at hcs hK
      simp only [dispatch, hb, ne_eq, not_false_eq_true, ↓reduceIte]
      exact disciplined_dispatch rest a hcs hK

/-- The join loop joins the tasks that are left. -/
theorem disciplined_joinAll {K : GlobalTxn → Server α}
    (hK : ∀ tx, Fallible.Disciplined n cs (.made cs.length cs.length false) (K tx)) :
    ∀ (is : List Nat) (b m : Nat) (tx : GlobalTxn), is.length = m → b + m = cs.length →
      Fallible.Disciplined n cs (.made cs.length b false) (joinAll (is.zip (List.range' b m)) tx >>= K)
  | [], b, _, tx, rfl, hb => by
    obtain rfl : b = cs.length := hb
    rw [List.zip_nil_left, joinAll, pure_bind]
    exact hK tx
  | i :: is, b, _, tx, rfl, hb => by
    rw [List.length_cons] at hb
    rw [List.length_cons, List.range'_succ, List.zip_cons_cons]
    simp only [joinAll, bind_assoc]
    refine Fallible.disciplined_join (by omega) fun r => ?_
    split <;> exact disciplined_joinAll hK is (b + 1) _ _ rfl (by omega)

end Loops

/-! ## The discipline of a submit -/

section Submit

variable [SerdeJson] (exec : ExecConfig)

/-- The two saves after the joins. -/
theorem disciplined_saves {n : Nat} {cs : List BranchCall} (tx : GlobalTxn) :
    Fallible.Disciplined n cs (.made cs.length cs.length false)
    (do
      let tx := { tx with updatedUnix := ← Fallible.now }
      save tx
      let tx := { tx with status := finalStatus tx.branches }
      let tx := { tx with updatedUnix := ← Fallible.now }
      save tx : Server Unit) := by
  refine Fallible.disciplined_now rfl fun t => Fallible.disciplined_put rfl (fun _ => .joined) ?_
  refine Fallible.disciplined_now rfl fun t => ?_
  rw [← bind_pure (save _)]
  exact Fallible.disciplined_put rfl (fun _ => .joined) .joined

/-- The first operation of what begins with a load, and what it does with the answer. -/
theorem run_load {α : Type} (gid : String) (K : Option GlobalTxn → Server α) :
    (load gid >>= K).run = .ask (.get (txnKey gid)) fun r => match r with
      | .error e => .ret (.error e)
      | .ok none => (K none).run
      | .ok (some v) => match fromSlice v with
        | .ok tx => (K (some tx)).run
        | .error e => .ret (.error e) := by
  simp only [load, bind_assoc]
  refine congrArg (Prog.ask _) (funext fun r => ?_)
  rcases r with e | _ | v
  · rfl
  · rfl
  · show ((match fromSlice v with
      | .ok tx => pure (some tx)
      | .error e => throw e : Server (Option GlobalTxn)) >>= K).run = match fromSlice v with
        | .ok tx => (K (some tx)).run
        | .error e => .ret (.error e)
    cases fromSlice v <;> rfl

/-- **After its load** a submit keeps the discipline of its semaphore. -/
theorem disciplined_submit (gid : String) : ∃ K : Option GlobalTxn → Server Unit, submit exec gid = load gid >>= K ∧
    ∀ tx, Fallible.Disciplined (max exec.branchParallelism 1) tx.calls .unmade (K (some tx)) := by
  refine ⟨_, rfl, fun tx => ?_⟩
  refine Fallible.disciplined_now trivial fun t => Fallible.disciplined_put trivial (fun _ => .ret) ?_
  refine Fallible.disciplined_semaphore (disciplined_dispatch _ _ 0 rfl ?_)
  have hlen : (preparedIndices tx.branches).length = tx.calls.length := by
    rw [preparedIndices, GlobalTxn.calls, callsOf, List.length_map, List.length_map]
  rw [Nat.zero_add]
  exact disciplined_joinAll disciplined_saves _ 0 _ _ hlen (Nat.zero_add _)

/-! ## A submit alone -/

variable {exec} {w : World} {st : Kv} {tx : GlobalTxn} {tr : Log} {s : Handlers Unit}

theorem submit_awaits (exec : ExecConfig) (gid : String) : (submit exec gid).run.awaits = some (.get (txnKey gid)) := by
  obtain ⟨K, hK, -⟩ := disciplined_submit exec gid
  rw [hK, run_load]
  rfl

/-- A submit alone has just arrived, or it keeps the discipline. -/
theorem submit_bounded (hst : Stored st tx) (h : Run (managing exec st [(.submit tx.gid, w)]) tr s) :
    s = managing exec st [(.submit tx.gid, w)] ∨
      ∃ p, s.procs = [p] ∧ p.Bounded (max exec.branchParallelism 1) tx.calls := by
  induction h with
  | nil => exact .inl rfl
  | @snoc tr s s' t e hr hs ih =>
    right
    rcases ih with rfl | ⟨p, hp, hb⟩
    · obtain ⟨K, hK, hd⟩ := disciplined_submit exec tx.gid
      have hprocs : (managing exec st [(.submit tx.gid, w)]).procs = [⟨(load tx.gid >>= K).run, .init w⟩] := by
        rw [← hK]; rfl
      cases t with
      | task i j =>
        -- it has no task yet
        obtain ⟨p, p', hp, ⟨-, t, t', ht, -⟩, -⟩ := step_task hs
        obtain ⟨-, rfl⟩ := eq_of_procs hprocs hp
        cases ht
      | main i =>
        obtain ⟨p, p', hp, hm, hps⟩ := Pool.main_of_step hs
        obtain ⟨rfl, rfl⟩ := eq_of_procs hprocs hp
        refine ⟨p', by rw [hps, hprocs]; rfl, .unmade, ?_⟩
        rw [run_load] at hm
        generalize s'.store = st' at hm
        obtain ⟨r, l, hr, rfl⟩ := Proc.main_ask hm
        simp only [perform] at hr
        split at hr
        · cases hr
          exact ⟨.ret, .unmade rfl rfl⟩
        · cases hr
          refine ⟨?_, .unmade rfl rfl⟩
          have hst : (managing exec st [(.submit tx.gid, w)]).store.lookup (txnKey tx.gid) = some (toVec tx) := hst
          simp only [hst, SerdeJson.fromSlice_toVec]
          exact hd tx
    · obtain ⟨p', hp', hb'⟩ := (Run.single hs).bounded (i := 0) (by rw [hp]; rfl) hb
      obtain ⟨q, hq, -⟩ := run_alone (.snoc hr hs)
      obtain ⟨-, rfl⟩ := eq_of_procs hq hp'
      exact ⟨p', hq, hb'⟩

/-- The tasks of a submit are an initial part of the calls, and not too many of them are running. -/
theorem submit_tasks (hst : Stored st tx) (h : Run (managing exec st [(.submit tx.gid, w)]) tr s) :
    ∃ p, s.procs = [p] ∧ p.loc.running ≤ max exec.branchParallelism 1 ∧ p.loc.tasks.map Task.call <+: tx.calls := by
  rcases submit_bounded hst h with rfl | ⟨p, hp, hb⟩
  · exact ⟨_, rfl, Nat.zero_le _, List.nil_prefix⟩
  · exact ⟨p, hp, hb.running_le, hb.calls⟩

/-- The semaphore of a submit. -/
theorem submit_made (hst : Stored st tx) {m : Nat} (h : MadeSemaphore (managing exec st [(.submit tx.gid, w)]) 0 m s) :
    m = max exec.branchParallelism 1 ∧ ∃ p, s.procs[0]? = some p ∧
      p.Permitted (max exec.branchParallelism 1) tx.calls := by
  refine h.permitted fun tr₁ s₁ p₁ m h₁ hp₁ ha => ?_
  rcases submit_bounded hst h₁ with rfl | ⟨p, hp, hb⟩
  · -- it has to load first
    obtain ⟨-, rfl⟩ := eq_of_procs rfl hp₁
    cases (submit_awaits exec tx.gid).symm.trans ha
  · obtain ⟨-, rfl⟩ := eq_of_procs hp hp₁
    exact hb

/-- A submit has returned, can go on, or waits for a running task. -/
theorem submit_progress (hmax : max 1 exec.branchParallelism ≤ maxPermits) (hst : Stored st tx)
    (h : Run (managing exec st [(.submit tx.gid, w)]) tr s) :
    (∃ p r, s.procs = [p] ∧ p.prog = .ret r) ∨ (s.step (.main 0)).isSome ∨ ∃ j, s.Waits 0 j := by
  rcases submit_bounded hst h with rfl | ⟨p, hp, hb⟩
  · refine .inr (.inl ((step_main_isSome (p := ⟨(submit exec tx.gid).run, .init w⟩) rfl).mpr ?_))
    obtain ⟨K, hK, -⟩ := disciplined_submit exec tx.gid
    rw [hK, run_load]
    trivial
  · have hp0 : s.procs[0]? = some p := by rw [hp]; rfl
    rcases Run.nil.progress hp0 hb (by omega) (by omega) with ⟨p', r, hp', hr⟩ | hgo
    · obtain ⟨-, rfl⟩ := eq_of_procs hp hp'
      exact .inl ⟨p', r, hp, hr⟩
    · exact .inr hgo

/-- A submit alone succeeds when its storage calls work. -/
theorem submit_ok (exec : ExecConfig) (hw : w.Reliable) (hst : Stored st tx) :
    ((script (submit exec tx.gid) (.init w)).exec st).2.1.1 = .ok () := by
  have hc (c : Core BranchCall Error) (h : c.env = w) : c.env.Reliable := h ▸ hw
  rw [script_submit, Script.exec_tryRead (hc _ rfl), hst, onRecord_toVec, submitRest, Script.exec_tryWrite (hc _ rfl),
    Script.exec_spawnAll, Script.exec_tryWrite (hc _ rfl), saveLast, Script.exec_tryWrite (hc _ rfl)]
  rfl

/-- A submit alone that has returned has done its script. -/
theorem submit_allOk (hst : Stored st tx) (hw : w.Reliable) (h : Run (managing exec st [(.submit tx.gid, w)]) tr s)
    {p : Proc Bytes Bytes BranchCall Error (Except Error Unit)} (hp : s.procs = [p]) {r : Except Error Unit}
    (hr : p.prog = .ret r) :
    s.AllOk := by
  obtain ⟨q, hq, hx⟩ := run_alone h
  obtain rfl : q = p := by
    rw [hq] at hp
    exact List.head_eq_of_cons_eq hp
  have hx : (script (submit exec tx.gid) (.init w)).exec st = (_, (q.todo.exec s.store).2) := hx
  have hok := submit_ok exec hw hst
  rw [hx, Proc.todo, hr] at hok
  intro q' hq'
  rw [hq, List.mem_singleton] at hq'
  subst hq'
  exact ⟨(), by rw [hr]; exact congrArg Prog.ret hok⟩

/-- **Parallelism is bounded and a submit does not deadlock.** At every moment at most `max 1 branchParallelism` tasks
are running, and once the semaphore is there the running tasks, the free permits and the permit in the hands of the
dispatch loop are as many as that. When a semaphore can have so many permits, the submit has returned, or it can go on,
or it waits for a running task whose end lets it go on. So when no turn is possible any more it has returned; then every
prepared branch was dispatched once and its task has ended, and the stored record has the outcome of every task. -/
theorem submit_parallelism (exec : ExecConfig) (w : World) (hst : Stored st tx)
    (h : Run (managing exec st [(.submit tx.gid, w)]) tr s) : ∃ p, s.procs = [p] ∧
      p.loc.running ≤ max 1 exec.branchParallelism ∧
      p.loc.tasks.map Task.call <+: tx.calls ∧
      (∀ m, MadeSemaphore (managing exec st [(.submit tx.gid, w)]) 0 m s → m = max 1 exec.branchParallelism ∧
        p.loc.running + p.loc.permits + p.prog.holds = max 1 exec.branchParallelism ∧
        ((∃ r, p.prog = .ret r) → p.loc.tasks.map Task.call = tx.calls ∧ ∀ t ∈ p.loc.tasks, t.finished = true)) ∧
      (max 1 exec.branchParallelism ≤ maxPermits →
        ((∃ r, p.prog = .ret r) ∨ (s.step (.main 0)).isSome ∨ ∃ j, s.Waits 0 j) ∧
        ((∀ t, s.step t = none) → (∃ r, p.prog = .ret r) ∧
          (w.Reliable → spawns (tr.map Prod.snd) = tx.calls ∧ Stored s.store (tx.submitted w)))) := by
  obtain ⟨p, hp, hrun, hcalls⟩ := submit_tasks hst h
  refine ⟨p, hp, Nat.max_comm _ _ ▸ hrun, hcalls, fun m hm => ?_, fun hmax => ?_⟩
  · obtain ⟨rfl, p', hp', hper⟩ := submit_made hst hm
    obtain ⟨-, rfl⟩ := eq_of_procs hp hp'
    rw [Nat.max_comm 1]
    exact ⟨rfl, hper.permits, fun ⟨r, hr⟩ => hper.ended hr⟩
  have hprogress : (∃ r, p.prog = .ret r) ∨ (s.step (.main 0)).isSome ∨ ∃ j, s.Waits 0 j := by
    rcases submit_progress hmax hst h with ⟨p', r, hp', hr⟩ | hgo
    · rw [hp', List.cons.injEq] at hp
      exact .inl ⟨r, hp.1 ▸ hr⟩
    · exact .inr hgo
  refine ⟨hprogress, fun hstop => ?_⟩
  rcases hprogress with hret | hgo | ⟨j, hwait, -⟩
  · obtain ⟨r, hr⟩ := hret
    refine ⟨⟨r, hr⟩, fun hw => ?_⟩
    have hok := submit_allOk hst hw h hp hr
    exact ⟨(submit_returned hst h hok).2, submit_stored hst h hok⟩
  · rw [hstop] at hgo
    cases hgo
  · rw [hstop] at hwait
    cases hwait

end Submit

section Example

attribute [local instance] Json.serdeJson

/-- With a parallelism of zero the second of two tasks is spawned after the first has panicked, and the submit can go
on from there. -/
theorem submit_parallelism_mixed :
    ∃ s p, (∃ tr, Run (managing { ExecConfig.default with branchParallelism := 0 } (holding mixed)
    [(.submit "g", mixedWorld)]) tr s) ∧ s.procs = [p] ∧ p.loc.running ≤ 1 ∧ p.loc.tasks.length = 2 ∧
    ((∃ r, p.prog = .ret r) ∨ (s.step (.main 0)).isSome ∨ ∃ j, s.Waits 0 j) := by
  obtain ⟨tr, s, h, hq⟩ := run_of_exec (s := managing { ExecConfig.default with branchParallelism := 0 } (holding mixed)
      [(.submit "g", mixedWorld)])
    [.main 0, .main 0, .main 0, .main 0, .main 0, .main 0, .task 0 0, .task 0 0, .main 0, .main 0]
    (fun x => x.2.procs.all fun p => p.loc.tasks.length == 2) (by decide +kernel)
  obtain ⟨p, hp, hrun, -, -, hgoes⟩ := submit_parallelism _ _ (stored_holding mixed) h
  have hmax : max 1 { ExecConfig.default with branchParallelism := 0 }.branchParallelism ≤ maxPermits := by decide
  refine ⟨s, p, ⟨tr, h⟩, hp, hrun, ?_, (hgoes hmax).1⟩
  rw [hp] at hq
  simpa using hq

/-- With a parallelism of `2 ^ 61` a submit panics when it makes its semaphore: no turn is possible any more, it has not
returned, and none of the prepared branches has been dispatched. -/
theorem too_many_permits : ∃ tr s p,
    Run (managing { ExecConfig.default with branchParallelism := 2 ^ 61 } (holding mixed)
      [(.submit "g", mixedWorld)]) tr s ∧ s.procs = [p] ∧ (∀ t, s.step t = none) ∧ (∀ r, p.prog ≠ .ret r) ∧
    p.loc.tasks = [] ∧ spawns (tr.map Prod.snd) = [] ∧ mixed.calls ≠ [] := by
  obtain ⟨tr, s, h, hq⟩ := run_of_exec (s := managing { ExecConfig.default with branchParallelism := 2 ^ 61 }
      (holding mixed) [(.submit "g", mixedWorld)])
    [.main 0, .main 0, .main 0]
    (fun x => (x.2.step (.main 0)).isNone && x.2.procs.all (fun p => p.prog.awaits.isSome && p.loc.tasks.isEmpty) &&
      (spawns (x.1.map Prod.snd)).isEmpty) (by decide +kernel)
  obtain ⟨p, hp, -⟩ := submit_tasks (stored_holding mixed) h
  simp only [hp, Bool.and_eq_true, Option.isNone_iff_eq_none, List.all_cons, List.all_nil, Bool.and_true,
    List.isEmpty_iff] at hq
  obtain ⟨⟨hmain, hret, htasks⟩, hspawns⟩ := hq
  refine ⟨tr, s, p, h, hp, fun t => ?_, fun r hr => ?_, htasks, hspawns, by decide⟩
  · rw [Option.eq_none_iff_forall_ne_some]
    rintro ⟨s', e⟩ hs
    cases t with
    | main i =>
      obtain ⟨q, -, hq, -⟩ := Pool.main_of_step hs
      obtain ⟨rfl, -⟩ := eq_of_procs hp hq
      rw [hmain] at hs
      cases hs
    | task i j =>
      obtain ⟨q, q', hq, ⟨-, t, t', ht, -⟩, -⟩ := step_task hs
      obtain ⟨-, rfl⟩ := eq_of_procs hp hq
      rw [htasks] at ht
      cases ht
  · rw [hr] at hret
    cases hret

end Example

end Seata
