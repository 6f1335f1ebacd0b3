import Seata.Evidence
import Seata.Ownership
import Seata.Async.Restarts

/-!
# Crashes and restarts of the server

The server may stop at any moment, with requests in flight and branch calls under way, and start again on its store. The
store is one that keeps what was put: a database of its own, or the local one if it was closed.

- `restarts_sound`: **what a crash leaves is sound**: after any number of them the records keep their integrity, every
  outcome has its evidence, and what was posted or read is genuine;
- `acknowledged_survive`: **what was acknowledged survives**: a transaction that a client was told of is there after the
  crash, and whoever asks for it finds it;
- `reports_once`: **a branch report that was acknowledged is not carried out again**, if it is repeated after the crash.
-/

namespace Seata

open Async

section Restarts

variable [SerdeJson]

/-- The calls that arrive between two crashes, again and again. -/
def restarting (exec : ExecConfig) (epochs : List (List (ApiCall × World))) :
    List (List (Handler ApiReply × World)) :=
  epochs.map fun cs => cs.map fun c => (c.1.handler exec, c.2)

variable {exec : ExecConfig} {epochs : List (List (ApiCall × World))} {tr : Log}
  {b : Pool Bytes Bytes BranchCall Error ApiReply}

/-- **Runs with crashes between them are a run** of all the calls. -/
theorem arriving_of_restarts {st : Kv} (h : Epochs st (restarting exec epochs) tr b) :
    Run (arriving exec st epochs.flatten) tr b := by
  have hrun := h.run
  rwa [restarting, ← List.map_flatten] at hrun

/-- **What a crash leaves is sound**: after any crashes the records are what was asked for, every outcome has its
evidence, only what was asked for was posted, and whoever has read a record has read one of the transaction that he
asked for. -/
theorem restarts_sound (h : Epochs ∅ (restarting exec epochs) tr b) :
    Upright (requestsOf epochs.flatten) tr b.store ∧
      ∀ i v, Replied b i (.record v) → ∃ c g tx, epochs.flatten[i]? = some c ∧ c.1.operation = .get g ∧ v = toVec tx ∧
        Integrity (requestsOf epochs.flatten) g tx := by
  have hrun := arriving_of_restarts h
  rw [arriving_eq] at hrun
  obtain ⟨s, hs, rfl⟩ := run_replying_iff.mp hrun
  exact ⟨run_upright hs, fun i v hv => replied_genuine hs hv⟩

/-! ## What was acknowledged -/

/-- The keys that the result of an operation tells of. -/
def Operation.Tells (o : Operation) : Except Error Outcome → Bytes → Prop
  | .ok (.done a), k => (∃ g, a = some g ∧ k = txnKey g) ∨ ∃ r, o = .request r ∧ r.mark = some k
  | .ok (.found (some _)), k => ∃ g, o = .get g ∧ k = txnKey g
  | _, _ => False

omit [SerdeJson] in
/-- A branch handler that succeeds leaves its mark. -/
theorem leaves_guarded {phase : BarrierPhase} {gid branchId : String} {operation : Server Unit}
    {c : Core BranchCall Error} {k : Bytes} (hk : k = asBytes (Barrier.key gid branchId phase)) :
    (script (guarded phase gid branchId operation) c).Leaves (fun b k' => (∃ a, b.1 = .ok a) ∧ k' = k) ∅ := by
  rw [script_guarded, ← hk]
  refine .tryRead (fun v => ?_) nofun
  split
  · rename_i hv
    rintro k' ⟨-, rfl⟩
    exact .inr ⟨rfl, hv⟩
  · exact .tryWrite (.of_mem fun _ _ h => .inr h.2) nofun

/-- **A request leaves what its result tells of**: a start its record, a branch report its mark. -/
theorem leaves_request (exec : ExecConfig) (r : Request) (w : World) :
    (script (r.handler exec) (.init w)).Leaves (fun b => (Operation.request r).Tells (b.1.map Outcome.done)) ∅ := by
  -- a request without a result tells of its mark only
  have hunit {operation : Server Unit} {r : Request} {c : Core BranchCall Error}
      (h : (script operation c).Leaves (fun b k => (∃ a, b.1 = .ok a) ∧ r.mark = some k) ∅) :
      (script (do operation; return none : Server Response) c).Leaves
        (fun b => (Operation.request r).Tells (b.1.map Outcome.done)) ∅ := by
    rw [script_bind]
    simp only [script_pure]
    refine .andThen_done (h.mono ?_)
    rintro ⟨e | a, c⟩ k hk
    · exact hk.elim
    · obtain ⟨g, hg, -⟩ | ⟨r', hr', hk⟩ := hk
      · cases hg
      · cases hr'
        exact ⟨⟨a, rfl⟩, hk⟩
  have hmark {r : Request} {k : Bytes} {x : Action Unit} (hr : r.mark = some k)
      (h : x.Leaves (fun b k' => (∃ a, b.1 = .ok a) ∧ k' = k) ∅) :
      x.Leaves (fun b k => (∃ a, b.1 = .ok a) ∧ r.mark = some k) ∅ :=
    h.mono fun _ _ hk => ⟨hk.1, Option.some.inj (hk.2.symm.trans hr)⟩
  have hnone {r : Request} {x : Action Unit} (hr : r.mark = none) :
      x.Leaves (fun b k => (∃ a, b.1 = .ok a) ∧ r.mark = some k) ∅ :=
    .of_mem fun b k hk => absurd (hr.symm.trans hk.2) (Option.some_ne_none k).symm
  cases r with
  | start gid mode payload =>
    rw [Request.handler, script_bind, script_start]
    simp only [script_pure]
    refine .andThen_done (.tryWrite ?_ fun _ _ h => h.elim)
    rintro k (⟨g, hg, rfl⟩ | ⟨r, hr, hk⟩)
    · exact .inr (congrArg txnKey (Option.some.inj hg).symm)
    · cases hr
      cases hk
  | submit gid => exact hunit (hnone rfl)
  | abort gid => exact hunit (hnone rfl)
  | addBranch gid branchId action => exact hunit (hnone rfl)
  | branchTry gid branchId action => exact hunit (hmark rfl (leaves_guarded rfl))
  | branchSucceed gid branchId => exact hunit (hmark rfl (leaves_guarded rfl))
  | branchFail gid branchId => exact hunit (hmark rfl (leaves_guarded rfl))

/-- **A handler leaves what its result tells of.** -/
theorem leaves_program (exec : ExecConfig) (o : Operation) (w : World) :
    (script (o.program exec) (.init w)).Leaves (fun b => o.Tells b.1) ∅ := by
  cases o with
  | request r =>
    rw [Operation.program, script_bind]
    simp only [script_pure]
    exact .andThen_done (leaves_request exec r w)
  | get gid =>
    rw [Operation.program, load, script_bind, script_bind, script_get, Script.tryRead_andThen, Script.tryRead_andThen]
    refine .tryRead (fun v => ?_) fun _ _ h => h.elim
    cases v with
    | none =>
      simp only [script_pure, Script.done_ok_andThen]
      exact fun _ hk => hk.elim
    | some val =>
      cases hval : (fromSlice val : Except Error GlobalTxn) with
      | error e =>
        simp only [hval, Script.done_ok_andThen, script_throw, Script.done_error_andThen]
        exact fun _ hk => hk.elim
      | ok tx =>
        simp only [hval, script_pure, Script.done_ok_andThen]
        rintro k ⟨g, hg, rfl⟩
        cases hg
        exact .inr ⟨rfl, rfl⟩
  | unknown => exact fun _ hk => hk.elim

/-- **What the result of a call tells of is in the store.** -/
theorem there_of_tells {st : Kv} {cs : List (ApiCall × World)} {q : Handlers Outcome}
    (h : Run (operating exec st (operations cs)) tr q) {i : Nat} {c : ApiCall × World} (hc : cs[i]? = some c)
    {p : Proc Bytes Bytes BranchCall Error (Except Error Outcome)} {r : Except Error Outcome}
    (hp : q.procs[i]? = some p) (hr : p.prog = .ret r) {k : Bytes} (hk : c.1.operation.Tells r k) :
    (q.store.lookup k).isSome := by
  have hall (i : Nat) (x : Action Outcome) (hx : (operating exec st (operations cs)).todos[i]? = some x) :
      x.Leaves (fun b k => ∃ c, cs[i]? = some c ∧ c.1.operation.Tells b.1 k) ∅ := by
    obtain ⟨c, hc, rfl⟩ := getElem?_operating.mp hx
    refine (leaves_program exec c.1.operation c.2).mono ?_
    rintro b k ⟨c', hc', hk⟩
    cases hc.symm.trans hc'
    exact hk
  obtain ⟨D, hD, hthere⟩ := h.interleaving.leaves hall i _ (getElem?_todos hp hr)
  exact hthere k (hD k ⟨c, hc, hk⟩)

/-! ## After the next crashes -/

/-- A key that is there stays there. -/
theorem there_of_run {st : Kv} {cs : List (ApiCall × World)} (h : Run (arriving exec st cs) tr b) {k : Bytes}
    (hk : (st.lookup k).isSome) : (b.store.lookup k).isSome := by
  rw [h.interleaving.written]
  exact isSome_written hk

omit [SerdeJson] in
/-- With its mark there, a branch handler puts nothing. -/
theorem guarantees_guarded {phase : BarrierPhase} {gid branchId : String} {operation : Server Unit}
    {c : Core BranchCall Error} {k : Bytes} (hk : asBytes (Barrier.key gid branchId phase) = k)
    {W : Bytes → Bytes → Prop} :
    (script (do guarded phase gid branchId operation; return none : Server Response) c).Guarantees
      (fun k' v => k' = k → v.isSome) W (fun _ => True) fun _ => True := by
  rw [script_bind, script_guarded, hk, Script.tryRead_andThen]
  refine .tryRead (fun v hv => ?_) fun _ => trivial
  simp only [if_pos (hv rfl), Script.done_ok_andThen, script_pure]
  trivial

/-- **With the key there**, a get of it finds it, and a report with this mark puts nothing. -/
theorem guarantees_program_there (exec : ExecConfig) (o : Operation) (w : World) (k : Bytes) :
    (script (o.program exec) (.init w)).Guarantees (fun k' v => k' = k → v.isSome)
      (fun _ _ => ∀ r, o = .request r → r.mark ≠ some k) (fun _ => True)
      fun b => ∀ g, o = .get g → txnKey g = k → b.1 ≠ .ok (.found none) := by
  have herror (e : Error) : (.error e : Except Error Outcome) ≠ .ok (.found none) := by simp
  cases o with
  | request r =>
    have hno (g : String) : Operation.request r ≠ .get g := by simp
    rw [Operation.program, script_bind]
    refine Script.Guarantees.andThen (R := fun _ => True) ?_ (fun _ _ _ g hg => absurd hg (hno g))
      fun e _ _ _ _ _ => herror e
    by_cases hr : r.mark = some k
    · cases r with
      | branchTry gid branchId action => exact guarantees_guarded (Option.some.inj hr)
      | branchSucceed gid branchId => exact guarantees_guarded (Option.some.inj hr)
      | branchFail gid branchId => exact guarantees_guarded (Option.some.inj hr)
      | _ => cases hr
    · exact .of_all (fun _ _ r' hr' => by cases hr'; exact hr) (fun _ => trivial) fun _ => trivial
  | get gid =>
    rw [Operation.program, load, script_bind, script_bind, script_get, Script.tryRead_andThen, Script.tryRead_andThen]
    refine .tryRead (fun v hv => ?_) fun e _ _ _ => herror e
    cases v with
    | none =>
      simp only [script_pure, Script.done_ok_andThen]
      rintro g hg hk -
      cases hg
      cases hv hk
    | some val =>
      cases hval : (fromSlice val : Except Error GlobalTxn) with
      | error e =>
        simp only [hval, Script.done_ok_andThen, script_throw, Script.done_error_andThen]
        exact fun _ _ _ => herror e
      | ok tx =>
        simp only [hval, script_pure, Script.done_ok_andThen]
        rintro _ _ _ ⟨⟩
  | unknown => exact fun _ _ _ => herror _

/-- The same along every run of operations. -/
theorem run_there {st : Kv} {cs : List (ApiCall × World)} {q : Handlers Outcome}
    (h : Run (operating exec st (operations cs)) tr q) {k : Bytes} (hk : (st.lookup k).isSome) :
    (∀ (i : Nat) (p : Proc Bytes Bytes BranchCall Error (Except Error Outcome)) (c : ApiCall × World) (g : String),
      q.procs[i]? = some p → p.prog = .ret (.ok (.found none)) → cs[i]? = some c → c.1.operation = .get g →
        txnKey g ≠ k) ∧
      ∀ (t : Turn) (e : Event Bytes Bytes BranchCall) (c : ApiCall × World) (r : Request), (t, e) ∈ tr →
        cs[t.handler]? = some c → c.1.operation = .request r → r.mark = some k → e.put? = none := by
  obtain ⟨hend, hputs⟩ := h.interleaving.there hk
    (W := fun i _ _ => ∀ c r, cs[i]? = some c → c.1.operation = .request r → r.mark ≠ some k)
    (R := fun i b => ∀ c g, cs[i]? = some c → c.1.operation = .get g → txnKey g = k → b.1 ≠ .ok (.found none))
    fun i x hx => by
      obtain ⟨c, hc, rfl⟩ := getElem?_operating.mp hx
      refine (guarantees_program_there exec c.1.operation c.2 k).mono (fun _ _ h => h) ?_ (fun _ h => h) ?_
      · intro _ _ hr c' r hc'
        cases hc.symm.trans hc'
        exact hr r
      · intro b hb c' g hc'
        cases hc.symm.trans hc'
        exact hb g
  refine ⟨fun i p c g hp hr hc hg hgk => ?_, fun t e c r hm hc hr hmark => ?_⟩
  · exact hend i _ (getElem?_todos hp hr) c g hc hg hgk rfl
  · cases e with
    | put k' v => exact absurd hmark (hputs t k' v hm c r hc hr)
    | _ => rfl

/-- Handler `i` has told its client of the transaction `g`: that it has started it, or what it looks like. -/
def Acknowledged (b : Pool Bytes Bytes BranchCall Error ApiReply) (i : Nat) (c : ApiCall) (g : String) : Prop :=
  Replied b i (.done (some g)) ∨ ∃ v, Replied b i (.record v) ∧ c.operation = .get g

theorem record_of_there {st : Kv} (hst : Sound st) {g : String} (h : (st.lookup (txnKey g)).isSome) :
    ∃ tx, record st g = some tx := by
  rw [hst.lookup, Option.isSome_map] at h
  exact Option.isSome_iff_exists.mp h

/-- What was acknowledged is in the store. -/
theorem there_of_acknowledged {st : Kv} {cs : List (ApiCall × World)} (h : Run (arriving exec st cs) tr b) {i : Nat}
    {c : ApiCall × World} (hc : cs[i]? = some c) {g : String} (hack : Acknowledged b i c.1 g) :
    (b.store.lookup (txnKey g)).isSome := by
  rw [arriving_eq] at h
  obtain ⟨q, hq, rfl⟩ := run_replying_iff.mp h
  rcases hack with hdone | ⟨v, hrec, hget⟩
  · obtain ⟨p, r, hp, hr, hmeaning⟩ := (replied_iff hq).mp hdone
    refine there_of_tells hq hc hp hr ?_
    rcases r with e | a | (_ | tx) <;> simp only [resultMeaning, reduceCtorEq, Meaning.done.injEq] at hmeaning
    exact .inl ⟨g, hmeaning, rfl⟩
  · obtain ⟨p, r, hp, hr, hmeaning⟩ := (replied_iff hq).mp hrec
    refine there_of_tells hq hc hp hr ?_
    rcases r with e | (_ | _) | (_ | tx) <;> simp only [resultMeaning, reduceCtorEq] at hmeaning
    exact ⟨g, hget, rfl⟩

/-- The mark of a report that is done is in the store. -/
theorem there_of_reported {st : Kv} {cs : List (ApiCall × World)} (h : Run (arriving exec st cs) tr b) {i : Nat}
    {c : ApiCall × World} (hc : cs[i]? = some c) {r : Request} (hr : c.1.operation = .request r) {k : Bytes}
    (hk : r.mark = some k) (hdone : Replied b i (.done none)) : (b.store.lookup k).isSome := by
  rw [arriving_eq] at h
  obtain ⟨q, hq, rfl⟩ := run_replying_iff.mp h
  obtain ⟨p, r', hp, hr', hmeaning⟩ := (replied_iff hq).mp hdone
  refine there_of_tells hq hc hp hr' ?_
  rcases r' with e | a | (_ | tx) <;> simp only [resultMeaning, reduceCtorEq, Meaning.done.injEq] at hmeaning
  exact .inr ⟨r, hr, hk⟩

variable {later : List (List (ApiCall × World))} {tr' : Log} {b' : Pool Bytes Bytes BranchCall Error ApiReply}

/-- **What was acknowledged survives**: a transaction that a client was told of, before the server crashed, is stored
after any further runs and crashes, within the integrity of what was asked for; and whoever asks for it after the crash
finds it, if he gets an answer. -/
theorem acknowledged_survive (before : Epochs ∅ (restarting exec epochs) tr b)
    (after : Epochs b.store (restarting exec later) tr' b') {i : Nat} {c : ApiCall × World}
    (hc : epochs.flatten[i]? = some c) {g : String} (hack : Acknowledged b i c.1 g) :
    (∃ tx, record b'.store g = some tx ∧ Integrity (requestsOf (epochs ++ later).flatten) g tx) ∧
      ∀ j c', later.flatten[j]? = some c' → c'.1.operation = .get g → ¬ Replied b' j .missing := by
  have hthere := there_of_acknowledged (arriving_of_restarts before) hc hack
  have hlater := arriving_of_restarts after
  refine ⟨?_, fun j c' hc' hget hmissing => ?_⟩
  · have hall := before.trans after
    rw [restarting, restarting, ← List.map_append] at hall
    have hrun := arriving_of_restarts hall
    obtain ⟨tx, htx⟩ := record_of_there (arriving_within sound_empty hrun).1 (there_of_run hlater hthere)
    rw [arriving_eq] at hrun
    obtain ⟨q, hq, heq⟩ := run_replying_iff.mp hrun
    have hst : b'.store = q.store := congrArg Pool.store heq
    exact ⟨tx, htx, ((run_upright hq).records g tx (hst ▸ htx)).1⟩
  · rw [arriving_eq] at hlater
    obtain ⟨q, hq, rfl⟩ := run_replying_iff.mp hlater
    obtain ⟨p, r, hp, hr, hmeaning⟩ := (replied_iff hq).mp hmissing
    rcases r with e | a | (_ | tx) <;> simp only [resultMeaning, reduceCtorEq] at hmeaning
    exact (run_there hq hthere).1 j p c' g hp hr hc' hget rfl

/-- **A branch report is carried out once**: after a client was told that its report is done, no report of the same
phase of the branch puts anything, whatever crashes lie between. -/
theorem reports_once (before : Epochs ∅ (restarting exec epochs) tr b)
    (after : Epochs b.store (restarting exec later) tr' b') {i : Nat} {c : ApiCall × World} {r : Request}
    (hc : epochs.flatten[i]? = some c) (hr : c.1.operation = .request r) {k : Bytes} (hk : r.mark = some k)
    (hdone : Replied b i (.done none)) {t : Turn} {e : Event Bytes Bytes BranchCall} (hm : (t, e) ∈ tr')
    {c' : ApiCall × World} (hc' : later.flatten[t.handler]? = some c') {r' : Request}
    (hr' : c'.1.operation = .request r') (hk' : r'.mark = some k) : e.put? = none := by
  have hthere := there_of_reported (arriving_of_restarts before) hc hr hk hdone
  have hlater := arriving_of_restarts after
  rw [arriving_eq] at hlater
  obtain ⟨q, hq, -⟩ := run_replying_iff.mp hlater
  exact (run_there hq hthere).2 t e c' r' hm hc' hr' hk'

end Restarts

section Example

attribute [local instance] Json.serdeJson

/-- After a crash a client looks at the transaction. -/
def afterCrash : List (ApiCall × World) := [(.grpc (.get ⟨"g"⟩), .calm 5)]

/-- The server crashes while a branch is being added, and a client reads what is left. -/
theorem restarts_sound_afterCrash : ∃ tr b, Epochs ∅ (restarting .default [mixedCalls, afterCrash]) tr b ∧
    Upright (requestsOf [mixedCalls, afterCrash].flatten) tr b.store ∧
      ∃ c g tx, [mixedCalls, afterCrash].flatten[4]? = some c ∧ c.1.operation = .get g ∧
        toVec ⟨"g", "saga", .submitted, [1, 2], [], 1, 1⟩ = toVec tx ∧
        Integrity (requestsOf [mixedCalls, afterCrash].flatten) g tx := by
  obtain ⟨tr, s, h, hq⟩ := run_of_exec (s := arriving .default ∅ mixedCalls) [.main 0, .main 0, .main 1]
    (fun x => ((arriving .default x.2.store afterCrash).exec [.main 0]).any fun (y : Log × _) =>
      decide (Replied ⟨y.2.store, x.2.procs ++ y.2.procs⟩ 4
        (.record (toVec ⟨"g", "saga", .submitted, [1, 2], [], 1, 1⟩)))) (by decide +kernel)
  obtain ⟨tr', s', h', hreplied⟩ := run_of_exec _ _ hq
  have hall : Epochs ∅ (restarting .default [mixedCalls, afterCrash]) _ _ := (Epochs.nil.next h).next h'
  have hsound := restarts_sound hall
  exact ⟨_, _, hall, hsound.1, hsound.2 4 _ (of_decide_eq_true hreplied)⟩

/-- A start and a report that are acknowledged. -/
def reportedCalls : List (ApiCall × World) :=
  [(.http (.start ⟨some "g", none, some [1]⟩), .calm 1), (.grpc (.branchTry ⟨"g", "b", "http://b"⟩), .calm 2)]

/-- After a crash the report arrives again, and a client looks at the transaction. -/
def redelivered : List (ApiCall × World) :=
  [(.http (.branchTry ⟨"g", "b", "http://b"⟩), .calm 3), (.http (.getTx "g"), .calm 4)]

/-- The two runs with the crash between them. -/
theorem exists_redelivered : ∃ tr b tr' b', Epochs ∅ (restarting .default [reportedCalls]) tr b ∧
    Epochs b.store (restarting .default [redelivered]) tr' b' ∧ Replied b 0 (.done (some "g")) ∧
      Replied b 1 (.done none) ∧ Replied b' 0 (.done none) := by
  obtain ⟨tr, s, h, hq⟩ := run_of_exec (s := arriving .default ∅ reportedCalls)
    [.main 0, .main 0, .main 1, .main 1, .main 1, .main 1, .main 1]
    (fun x => decide (Replied x.2 0 (.done (some "g")) ∧ Replied x.2 1 (.done none)) &&
      ((arriving .default x.2.store redelivered).exec [.main 0]).any fun (y : Log × _) =>
        decide (Replied y.2 0 (.done none))) (by decide +kernel)
  rw [Bool.and_eq_true_iff] at hq
  obtain ⟨hstarted, hreported⟩ := of_decide_eq_true hq.1
  obtain ⟨tr', s', h', hagain⟩ := run_of_exec _ _ hq.2
  exact ⟨_, _, _, _, Epochs.nil.next h, Epochs.nil.next h', hstarted, hreported, of_decide_eq_true hagain⟩

/-- The transaction is there after the crash, and is found. -/
theorem acknowledged_survive_redelivered : ∃ b' : Pool Bytes Bytes BranchCall Error ApiReply,
    (∃ tx, record b'.store "g" = some tx ∧ Integrity (requestsOf [reportedCalls, redelivered].flatten) "g" tx) ∧
      ∀ j c', [redelivered].flatten[j]? = some c' → c'.1.operation = .get "g" → ¬ Replied b' j .missing := by
  obtain ⟨tr, b, tr', b', before, after, hstarted, -⟩ := exists_redelivered
  exact ⟨b', acknowledged_survive before after (i := 0) rfl (.inl hstarted)⟩

/-- The report that arrives again is answered, and puts nothing. -/
theorem reports_once_redelivered : ∃ (tr' : Log) (b' : Pool Bytes Bytes BranchCall Error ApiReply),
    Replied b' 0 (.done none) ∧ ∀ t e, (t, e) ∈ tr' → t.handler = 0 → e.put? = none := by
  obtain ⟨tr, b, tr', b', before, after, -, hreported, hagain⟩ := exists_redelivered
  refine ⟨tr', b', hagain, fun t e hm ht => ?_⟩
  exact reports_once before after (i := 1) rfl rfl rfl hreported hm (congrArg ([redelivered].flatten[·]?) ht) rfl rfl

end Example

end Seata
