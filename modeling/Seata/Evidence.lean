import Seata.Genuine
import Seata.Handlers
import Seata.Async.Joined

/-!
# Evidence for every outcome

No outcome comes out of thin air. In every interleaving of calls of any front end, from an empty store and with any
faults (`outcomes_evident`):

- a branch is stored as succeeded only after a client reported it, or after the participant answered a call with
  success;
- it is stored as failed only if a client reported that or aborted the transaction, or after a call has failed;
- a transaction is stored as committing or committed only if somebody submits it, as aborted only if somebody submits
  or aborts it, and as aborting never.

A submit joins its tasks before it saves their outcomes (`joins_submit`), so the trace attests what it saves.
-/

namespace Seata

open Async

/-- Some request asks for this. -/
def Asked (rs : List (Request × World)) (r : Request) : Prop := ∃ w, (r, w) ∈ rs

/-- A participant has answered a call for the branch with success. -/
def Accepted (tr : Log) (g b : String) : Prop := ∃ t c, (t, .post c true) ∈ tr ∧ c.gid = g ∧ c.branchId = b

/-- A call for the branch has failed. -/
def Refused (tr : Log) (g b : String) : Prop :=
  ∃ t c, ((t, .post c false) ∈ tr ∨ (t, .panic c) ∈ tr) ∧ c.gid = g ∧ c.branchId = b

/-- What must have been asked for a record to have the status. -/
def Warranted (rs : List (Request × World)) (g : String) : GlobalStatus → Prop
  | .submitted => True
  | .aborting => False
  | .aborted => Asked rs (.submit g) ∨ Asked rs (.abort g)
  | .committing => Asked rs (.submit g)
  | .committed => Asked rs (.submit g)

/-- There is evidence for the outcomes in the record; `ok` and `ko` say for which branches a call has succeeded or
failed. -/
structure Evident (rs : List (Request × World)) (ok ko : String → String → Prop) (tx : GlobalTxn) : Prop where
  status : Warranted rs tx.gid tx.status
  succeeded : ∀ b ∈ tx.branches, b.status = .succeed →
    Asked rs (.branchSucceed tx.gid b.branchId) ∨ ok tx.gid b.branchId
  failed : ∀ b ∈ tx.branches, b.status = .failed →
    Asked rs (.branchFail tx.gid b.branchId) ∨ Asked rs (.abort tx.gid) ∨ ko tx.gid b.branchId

namespace Evident

variable {rs : List (Request × World)} {ok ko ok' ko' : String → String → Prop} {tx : GlobalTxn}

theorem mono (hok : ∀ g b, ok g b → ok' g b) (hko : ∀ g b, ko g b → ko' g b) (h : Evident rs ok ko tx) :
    Evident rs ok' ko' tx where
  status := h.status
  succeeded b hb hs := (h.succeeded b hb hs).imp id (hok _ _)
  failed b hb hs := (h.failed b hb hs).imp id (Or.imp id (hko _ _))

theorem new (gid mode : String) (payload : Bytes) (now : Int) : Evident rs ok ko (.new gid mode payload now) where
  status := trivial
  succeeded _ hb := absurd hb List.not_mem_nil
  failed _ hb := absurd hb List.not_mem_nil

theorem committing (h : Evident rs ok ko tx) (hs : Asked rs (.submit tx.gid)) (now : Int) :
    Evident rs ok ko (tx.committing now) := ⟨hs, h.succeeded, h.failed⟩

/-- The outcomes of the calls that the record asks for. -/
theorem decided (h : Evident rs ok ko tx) {e : World}
    (hok : ∀ x ∈ tx.calls, succeeds e x = true → ok x.gid x.branchId)
    (hko : ∀ x ∈ tx.calls, succeeds e x = false → ko x.gid x.branchId) (now : Int) :
    Evident rs ok ko (tx.decided e now) := by
  have hcases {b : BranchTxn} (hb : b ∈ tx.outcomes e) : b ∈ tx.branches ∨
      ∃ x ∈ tx.calls, x.gid = tx.gid ∧ x.branchId = b.branchId ∧
        b.status = if succeeds e x then .succeed else .failed := by
    obtain ⟨⟨a, i⟩, hmem, rfl⟩ := List.mem_map.mp hb
    simp only [withOutcome]
    split
    · rename_i hprepared
      refine .inr ⟨branchCall tx i a, ?_, rfl, rfl, rfl⟩
      exact List.mem_map.mpr ⟨(a, i), List.mem_filter.mpr ⟨hmem, by simp [hprepared]⟩, rfl⟩
    · exact .inl (List.fst_mem_of_mem_zipIdx hmem)
  refine ⟨h.status, fun b hb hs => ?_, fun b hb hs => ?_⟩
  · rcases hcases hb with hb | ⟨x, hx, hgid, hid, hstatus⟩
    · exact h.succeeded b hb hs
    · cases hx' : succeeds e x
      · simp [hx', hs] at hstatus
      · exact .inr (hgid ▸ hid ▸ hok x hx hx')
  · rcases hcases hb with hb | ⟨x, hx, hgid, hid, hstatus⟩
    · exact h.failed b hb hs
    · cases hx' : succeeds e x
      · exact .inr (.inr (hgid ▸ hid ▸ hko x hx hx'))
      · simp [hx', hs] at hstatus

theorem finalized (h : Evident rs ok ko tx) (hs : Asked rs (.submit tx.gid)) (now : Int) :
    Evident rs ok ko (tx.finalized now) := by
  refine ⟨?_, h.succeeded, h.failed⟩
  show Warranted rs tx.gid (finalStatus tx.branches)
  unfold finalStatus
  split
  · exact hs
  · split
    · exact .inl hs
    · exact hs

theorem aborted (h : Evident rs ok ko tx) (ha : Asked rs (.abort tx.gid)) (now : Int) :
    Evident rs ok ko (tx.aborted now) := by
  refine ⟨.inr ha, fun b hb hs => ?_, fun b hb hs => ?_⟩
  · obtain ⟨a, hmem, rfl⟩ := List.mem_map.mp hb
    unfold failUnlessSucceed at hs ⊢
    split at hs
    · cases hs
    · rename_i hne
      rw [if_neg hne]
      exact h.succeeded a hmem hs
  · exact .inr (.inl ha)

theorem withBranch (h : Evident rs ok ko tx) (branchId action : String) (now : Int) :
    Evident rs ok ko (tx.withBranch branchId action now) := by
  refine ⟨h.status, fun b hb hs => ?_, fun b hb hs => ?_⟩
  · rcases List.mem_append.mp hb with hb | hb
    · exact h.succeeded b hb hs
    · rw [List.mem_singleton.mp hb] at hs
      cases hs
  · rcases List.mem_append.mp hb with hb | hb
    · exact h.failed b hb hs
    · rw [List.mem_singleton.mp hb] at hs
      cases hs

/-- A report changes the branch that it is about. -/
theorem withBranches (h : Evident rs ok ko tx) {status : BranchStatus} {branchId : String} {bs : List BranchTxn}
    (hbs : tx.report status branchId = some bs)
    (hsucceed : status = .succeed → Asked rs (.branchSucceed tx.gid branchId))
    (hfail : status = .failed → Asked rs (.branchFail tx.gid branchId)) (now : Int) :
    Evident rs ok ko (tx.withBranches bs now) := by
  have hcases {b : BranchTxn} (hb : b ∈ bs) : b ∈ tx.branches ∨ b.branchId = branchId ∧ b.status = status := by
    rcases mem_updateFirst hbs hb with hb | ⟨a, -, ha, rfl⟩
    · exact .inl hb
    · exact .inr ⟨beq_iff_eq.mp ha, rfl⟩
  refine ⟨h.status, fun b hb hs => ?_, fun b hb hs => ?_⟩
  · rcases hcases hb with hb | ⟨hid, hstatus⟩
    · exact h.succeeded b hb hs
    · exact .inl (hid ▸ hsucceed (hstatus.symm.trans hs))
  · rcases hcases hb with hb | ⟨hid, hstatus⟩
    · exact h.failed b hb hs
    · exact .inl (hid ▸ hfail (hstatus.symm.trans hs))

end Evident

/-- The invariant of the store: records with evidence, wherever there is one. -/
def evident (rs : List (Request × World)) (ok ko : String → String → Prop) (o : Option GlobalTxn) : Prop :=
  ∀ tx, o = some tx → Evident rs ok ko tx

/-- The outcomes of the calls `cs`, besides those that are known. -/
def orSpawned (known : String → String → Prop) (e : World) (cs : List BranchCall) (ok : Bool) (g b : String) : Prop :=
  known g b ∨ ∃ x ∈ cs, succeeds e x = ok ∧ x.gid = g ∧ x.branchId = b

section Evidence

variable [SerdeJson]

/-! ## Joining -/

omit [SerdeJson] in
theorem joins_dispatch {α : Type} (tx : GlobalTxn) : ∀ (l : List (BranchTxn × Nat)) {hs : List Nat}
    {f : List Nat → Server α}, (∀ hs', hs'.length = (l.filter fun p => p.1.status == .prepared).length →
      Fallible.Joins (hs ++ hs') (f hs')) → Fallible.Joins hs (dispatch tx l >>= f)
  | [], hs, f, h => by
    rw [dispatch, pure_bind]
    simpa using h [] rfl
  | (b, i) :: rest, hs, f, h => by
    rw [dispatch]
    split
    · rename_i hb
      refine joins_dispatch tx rest fun hs' hlen => h hs' ?_
      rwa [List.filter_cons_of_neg (by simpa using hb)]
    · rename_i hb
      simp only [bind_assoc, pure_bind]
      refine Fallible.joins_acquire (Fallible.joins_spawn fun n => ?_)
      refine joins_dispatch tx rest fun hs' hlen => ?_
      rw [List.append_assoc]
      refine h (n :: hs') ?_
      rw [List.filter_cons_of_pos (by simpa using hb), List.length_cons, hlen, List.length_cons]

omit [SerdeJson] in
theorem joins_joinAll {α : Type} {f : GlobalTxn → Server α} (hf : ∀ tx, Fallible.Joins [] (f tx)) :
    ∀ (l : List (Nat × Nat)) (tx : GlobalTxn), Fallible.Joins (l.map Prod.snd) (joinAll l tx >>= f)
  | [], tx => by
    rw [joinAll, pure_bind]
    exact hf tx
  | (i, h) :: rest, tx => by
    rw [joinAll, bind_assoc]
    refine Fallible.joins_join fun r => ?_
    dsimp only
    split
    · exact joins_joinAll hf rest _
    · exact joins_joinAll hf rest _

/-- **A submit joins its tasks** before it saves their outcomes. -/
theorem joins_submit (exec : ExecConfig) (gid : String) : Fallible.Joins [] (submit exec gid) := by
  refine closed_load Fallible.closed_joins fun o => ?_
  cases o with
  | none => exact .ret
  | some tx =>
    refine Fallible.joins_now fun now => Fallible.closed_joins.put (Fallible.joins_semaphore ?_)
    refine joins_dispatch _ _ fun hs hlen => ?_
    have hhandles : (((preparedIndices tx.branches).zip hs).map Prod.snd) = hs := by
      refine List.map_snd_zip ?_
      rw [hlen, preparedIndices, List.length_map]
    refine Eq.mp (congrArg (fun l => Fallible.Joins l _) hhandles) (joins_joinAll (fun tx => ?_) _ _)
    refine Fallible.joins_now fun _ => Fallible.closed_joins.put (Fallible.joins_now fun _ => ?_)
    exact closed_save Fallible.closed_joins _

theorem joins_handler (exec : ExecConfig) (o : Operation) : (o.program exec).run.Joins [] :=
  closed_program Fallible.closed_joins (joins_submit exec) o

/-! ## What the operations save -/

variable {rs : List (Request × World)} {ok ko : String → String → Prop}

/-- What a handler in the world `w` can save after the calls `cs`. -/
def evidentAfter (rs : List (Request × World)) (ok ko : String → String → Prop) (w : World) (cs : List BranchCall)
    (k v : Bytes) : Prop :=
  Keeps Set.univ (evident rs (orSpawned ok w cs true) (orSpawned ko w cs false)) anyMark k (some v)

theorem evident_mono {ok' ko' : String → String → Prop} (hok : ∀ g b, ok g b → ok' g b)
    (hko : ∀ g b, ko g b → ko' g b) {k : Bytes} {v : Option Bytes}
    (h : Keeps Set.univ (evident rs ok ko) anyMark k v) : Keeps Set.univ (evident rs ok' ko') anyMark k v := by
  refine ⟨fun g hg hk => ?_, h.2⟩
  obtain ⟨o, ho, hgid, hI⟩ := h.1 g hg hk
  exact ⟨o, ho, hgid, fun tx htx => (hI tx htx).mono hok hko⟩

/-- An operation without calls. -/
theorem accounts_of_upholds {α : Type} {w : World} {cs : List BranchCall} {S : BranchCall → Prop} {x : Action α}
    (h : Upholds Set.univ (evident rs ok ko) (evident rs ok ko) anyMark S x) :
    x.Accounts (Keeps Set.univ (evident rs ok ko) anyMark) (evidentAfter rs ok ko w) cs :=
  h.accounts fun _ _ _ => evident_mono (fun _ _ => .inl) fun _ _ => .inl

/-- A submit saves the outcomes of the calls that it has spawned. -/
theorem accounts_submit (exec : ExecConfig) {gid : String} (hs : Asked rs (.submit gid)) (w : World) :
    (script (submit exec gid) (.init w)).Accounts (Keeps Set.univ (evident rs ok ko) anyMark)
      (evidentAfter rs ok ko w) [] := by
  rw [script_submit]
  refine .tryRead fun v hv => ?_
  refine onRecord_of_keeps (N := fun x => x.Accounts _ (evidentAfter rs ok ko w) []) hv (Set.mem_univ _)
    (fun _ => trivial) fun tx hgid hI => ?_
  have h (cs : List BranchCall) : Evident rs (orSpawned ok w cs true) (orSpawned ko w cs false) tx :=
    (hI tx rfl).mono (fun _ _ => .inl) fun _ _ => .inl
  rw [← hgid] at hs
  have hkeeps {cs : List BranchCall} {tx' : GlobalTxn} (hgid' : tx'.gid = tx.gid)
      (h' : Evident rs (orSpawned ok w cs true) (orSpawned ko w cs false) tx') :
      evidentAfter rs ok ko w cs (txnKey tx.gid) (toVec tx') :=
    keeps_toVec (congrArg txnKey hgid'.symm) fun _ htx => Option.some.inj htx ▸ h'
  unfold submitRest
  refine .tryWrite (hkeeps rfl ((h []).committing hs _)) (.spawnAll ?_)
  rw [List.nil_append]
  have hdecided (n₁ n₂ : Int) := ((h _).committing hs n₁).decided (e := w)
    (fun x hx hok => .inr ⟨x, hx, hok, rfl, rfl⟩) (fun x hx hko => .inr ⟨x, hx, hko, rfl, rfl⟩) n₂
  refine .tryWrite (hkeeps rfl (hdecided _ _)) ?_
  unfold saveLast
  exact .tryWrite (hkeeps rfl ((hdecided _ _).finalized hs _)) trivial

/-- The other requests save what was there, and what they ask for. -/
theorem upholds_evident {exec : ExecConfig} {r : Request × World} (hr : r ∈ rs) (hns : ∀ gid, r.1 ≠ .submit gid) :
    Upholds Set.univ (evident rs ok ko) (evident rs ok ko) anyMark (fun _ => True)
      (script (r.1.handler exec) (.init r.2)) := by
  obtain ⟨r, w⟩ := r
  have hasked : Asked rs r := ⟨w, hr⟩
  have hadd {branchId action : String} (tx : GlobalTxn) (now : Int) (h : evident rs ok ko (some tx)) :
      evident rs ok ko (some (tx.withBranch branchId action now)) :=
    fun _ htx => Option.some.inj htx ▸ (h tx rfl).withBranch branchId action now
  cases r <;> refine upholds_returning ?_
  case start gid mode payload =>
    exact upholds_start fun _ htx => Option.some.inj htx ▸ Evident.new ..
  case submit gid => exact absurd rfl (hns gid)
  case abort gid =>
    refine upholds_abort (Set.mem_univ _) fun tx now hgid h _ htx => ?_
    exact Option.some.inj htx ▸ (h tx rfl).aborted (hgid ▸ hasked) now
  case addBranch gid branchId action =>
    exact upholds_addBranch (Set.mem_univ _) fun tx now _ h _ => hadd tx now h
  case branchTry gid branchId action =>
    exact upholds_guarded trivial fun _ _ => upholds_addBranch (Set.mem_univ _) fun tx now _ h _ => hadd tx now h
  case branchSucceed gid branchId =>
    refine upholds_guarded trivial fun _ _ => upholds_setBranch .succeed branchId (Set.mem_univ _) ?_
    exact fun tx bs now hgid h hbs _ htx => Option.some.inj htx ▸
      (h tx rfl).withBranches hbs (fun _ => hgid ▸ hasked) (fun hne => nomatch hne) now
  case branchFail gid branchId =>
    refine upholds_guarded trivial fun _ _ => upholds_setBranch .failed branchId (Set.mem_univ _) ?_
    exact fun tx bs now hgid h hbs _ htx => Option.some.inj htx ▸
      (h tx rfl).withBranches hbs (fun hne => nomatch hne) (fun _ => hgid ▸ hasked) now

/-- **Every operation saves records with evidence.** -/
theorem accounts_program (exec : ExecConfig) {o : Operation × World}
    (ho : ∀ r, Operation.request? o = some r → r ∈ rs) :
    (script (o.1.program exec) (.init o.2)).Accounts (Keeps Set.univ (evident rs ok ko) anyMark)
      (evidentAfter rs ok ko o.2) [] := by
  obtain ⟨o, w⟩ := o
  cases o with
  | request r =>
    rw [Operation.program, script_bind]
    refine Script.Accounts.andThen (fun _ _ _ => ?_) ?_
    · trivial
    have hr : (r, w) ∈ rs := ho (r, w) rfl
    by_cases hs : ∃ gid, r = .submit gid
    · obtain ⟨gid, rfl⟩ := hs
      rw [Request.handler, script_bind]
      refine Script.Accounts.andThen (fun _ _ _ => ?_) (accounts_submit exec ⟨w, hr⟩ w)
      trivial
    · exact accounts_of_upholds (upholds_evident hr fun gid hgid => hs ⟨gid, hgid⟩)
  | get gid =>
    rw [Operation.program, load, script_bind, script_bind, script_get, Script.tryRead_andThen, Script.tryRead_andThen]
    refine .tryRead fun v hv => ?_
    obtain ⟨found, rfl, -⟩ := hv.1 gid (Set.mem_univ _) rfl
    cases found with
    | none => simp [Script.Accounts]
    | some tx => simp [Script.Accounts]
  | unknown => trivial

/-! ## Every outcome has its evidence -/

omit [SerdeJson] in
/-- A call that has ended in the trace has been accepted or refused there. -/
theorem attested_shows {tr : Log} {i : Nat} {e : World} {c : BranchCall} (h : Attested tr i e c) :
    if succeeds e c then Accepted tr c.gid c.branchId else Refused tr c.gid c.branchId := by
  unfold Attested at h
  unfold succeeds
  split at h
  · rename_i hv
    obtain ⟨j, hj⟩ := h
    rw [hv]
    exact ⟨_, c, hj, rfl, rfl⟩
  · rename_i hv
    obtain ⟨j, hj⟩ := h
    rw [if_neg]
    · exact ⟨_, c, hj, rfl, rfl⟩
    · intro hs
      cases hverdict : (e.call c).verdict with
      | none => simp [hverdict] at hs
      | some b => exact hv (by simpa [hverdict] using hs)

variable {exec : ExecConfig} {cs : List (ApiCall × World)} {tr : Log}

/-- Along every run of operations there is evidence for the records in the store. -/
theorem run_evident {s : Handlers Outcome} (h : Run (operating exec ∅ (operations cs)) tr s) (k : Bytes) :
    Keeps Set.univ (evident (requestsOf cs) (Accepted tr) (Refused tr)) anyMark k (s.store.lookup k) := by
  have hempty (k : Bytes) : Keeps Set.univ (evident (requestsOf cs) (Accepted tr) (Refused tr)) anyMark k
      ((∅ : Kv).lookup k) :=
    ⟨fun _ _ _ => ⟨none, by simp, by simp, fun tx htx => by cases htx⟩, fun _ _ _ _ => trivial⟩
  have hprogs {p : Prog Bytes Bytes BranchCall Error (Except Error Outcome) × World}
      (hp : p ∈ (operations cs).map fun o => ((o.1.program exec).run, o.2)) :
      p.1.Joins [] ∧ (resolve p.1 (.init p.2)).Accounts
        (Keeps Set.univ (evident (requestsOf cs) (Accepted tr) (Refused tr)) anyMark)
        (evidentAfter (requestsOf cs) (Accepted tr) (Refused tr) p.2) [] := by
    obtain ⟨o, ho, rfl⟩ := List.mem_map.mp hp
    exact ⟨joins_handler exec o.1, accounts_program exec fun r hr => List.mem_filterMap.mpr ⟨o, ho, hr⟩⟩
  have hshown (i : Nat) (e : World) (spawned : List BranchCall) (k v : Bytes)
      (hattested : ∀ c ∈ spawned, Attested tr i e c)
      (hv : evidentAfter (requestsOf cs) (Accepted tr) (Refused tr) e spawned k v) :
      Keeps Set.univ (evident (requestsOf cs) (Accepted tr) (Refused tr)) anyMark k (some v) := by
    refine evident_mono (fun g b hok => ?_) (fun g b hko => ?_) hv
    · rcases hok with hok | ⟨c, hc, hs, rfl, rfl⟩
      · exact hok
      · simpa [hs] using attested_shows (hattested c hc)
    · rcases hko with hko | ⟨c, hc, hs, rfl, rfl⟩
      · exact hko
      · simpa [hs] using attested_shows (hattested c hc)
  exact (h.accounts (fun p hp => (hprogs hp).1) hempty (fun p hp => (hprogs hp).2) hshown fun _ hx => hx).1 k

/-- What is stored and what was posted is what somebody asked for, and the outcomes have their evidence in the trace. -/
structure Upright (rs : List (Request × World)) (tr : Log) (st : Kv) : Prop where
  records : ∀ g tx, record st g = some tx → Integrity rs g tx ∧ Evident rs (Accepted tr) (Refused tr) tx
  posts : ∀ t e c, (t, e) ∈ tr → e.attempts c → Genuine rs c

/-- **Every run is upright.** -/
theorem run_upright {s : Handlers Outcome} (h : Run (operating exec ∅ (operations cs)) tr s) :
    Upright (requestsOf cs) tr s.store := by
  obtain ⟨hkeeps, -, hspawns⟩ := run_genuine h
  refine ⟨fun g tx htx => ?_, fun t e c hm hc => hspawns _ c (h.spawned_before hm hc)⟩
  obtain ⟨hgid, hI⟩ := record_of_keeps hkeeps htx
  exact ⟨hgid ▸ hI, (record_of_keeps (run_evident h) htx).2⟩

/-- **Every outcome has its evidence**: in every state reached from an empty store by calls of any front end, what is
stored for a transaction is what somebody asked for, or what the trace shows of the calls to its participants. -/
theorem outcomes_evident {s : Pool Bytes Bytes BranchCall Error ApiReply} (h : Run (arriving exec ∅ cs) tr s)
    (g : String) {tx : GlobalTxn} (htx : record s.store g = some tx) :
    tx.gid = g ∧ Evident (requestsOf cs) (Accepted tr) (Refused tr) tx := by
  rw [arriving_eq] at h
  obtain ⟨s, hr, rfl⟩ := run_replying_iff.mp h
  exact record_of_keeps (run_evident hr) htx

end Evidence

section Example

attribute [local instance] Json.serdeJson

/-- A submit has saved that its participant accepted the call. -/
theorem outcomes_evident_mixed : ∃ tr, Evident (requestsOf mixedCalls) (Accepted tr) (Refused tr)
    ⟨"g", "saga", .committing, [1, 2], [⟨"b", "http://b", .succeed⟩], 3, 1⟩ := by
  obtain ⟨tr, s, h, hq⟩ := run_of_exec (s := arriving .default ∅ mixedCalls)
    [.main 0, .main 0, .main 1, .main 1, .main 1, .main 2, .main 2, .main 2, .main 2, .main 2, .main 2, .task 2 0,
      .main 2, .main 2, .main 2]
    (fun x => decide (record x.2.store "g" =
      some ⟨"g", "saga", .committing, [1, 2], [⟨"b", "http://b", .succeed⟩], 3, 1⟩)) (by decide +kernel)
  exact ⟨tr, (outcomes_evident h "g" (of_decide_eq_true hq)).2⟩

end Example

end Seata
