import Seata.Sequential
import Seata.Async.Isolation

/-!
# Transactions do not notice each other

A call of the saga manager reads and writes only the record of its own transaction: the key is computed from the gid
alone, different gids have different keys, and a record is saved under the gid that it was loaded for. So the steps of
all calls on other transactions can be deleted from a run (`transactions_isolated`).
-/

namespace Seata

open Async

/-- A call of the saga manager: a start, or a call on an existing transaction. -/
inductive SagaCall where
  | start (gid mode : String) (payload : Bytes)
  | request (r : SagaRequest)
  deriving DecidableEq, Repr

namespace SagaCall

def gid : SagaCall → String
  | .start gid _ _ => gid
  | .request r => r.gid

/-- The caller names the transaction. -/
def Named : SagaCall → Prop
  | .start gid _ _ => gid ≠ ""
  | .request _ => True

end SagaCall

section Calls

variable [SerdeJson]

def SagaCall.handler (exec : ExecConfig) : SagaCall → Server Response
  | .start gid mode payload => return some (← Seata.start gid mode payload)
  | .request r => do r.handler exec; return none

/-- Calls of the saga manager that arrive together. -/
def calling (exec : ExecConfig) (st : Kv) (rs : List (SagaCall × World)) : Handlers Response :=
  .init st (rs.map fun r => ((r.1.handler exec).run, r.2))

theorem calling_todos (exec : ExecConfig) (st : Kv) (rs : List (SagaCall × World)) :
    (calling exec st rs).todos = rs.map fun r => script (r.1.handler exec) (.init r.2) := by
  simp only [calling, Pool.init, Pool.todos, List.map_map]
  rfl

/-! ## One key for each call -/

/-- The script touches only the record of `gid`, and saves encoded records of their own gids. -/
abbrev OnRecord {α : Type} (gid : String) (x : Action α) : Prop :=
  x.Within (Keeps Set.univ (fun _ => True) anyMark) (· = txnKey gid)

section Own

variable {gid : String} {c : Core BranchCall Error}

theorem own_onRecord {f : GlobalTxn → Core BranchCall Error → Action Unit}
    (hf : ∀ tx c, tx.gid = gid → OnRecord gid (f tx c)) :
    OnRecord gid (.tryRead c (txnKey gid) fun v c => onRecord v c f) := by
  refine .tryRead rfl fun v hv => ?_
  exact onRecord_of_keeps (N := OnRecord gid) hv (Set.mem_univ gid) (fun _ => trivial) fun tx hgid _ => hf tx _ hgid

theorem own_saveLast {tx : GlobalTxn} (hgid : tx.gid = gid) : OnRecord gid (saveLast tx c) := by
  unfold saveLast
  exact .tryWrite (congrArg txnKey hgid) (keeps_toVec rfl trivial) trivial

theorem own_submitRest {tx : GlobalTxn} (hgid : tx.gid = gid) : OnRecord gid (submitRest tx c) := by
  unfold submitRest
  refine .tryWrite (congrArg txnKey hgid) (keeps_toVec rfl trivial) ?_
  refine .spawnAll ?_ _
  refine .tryWrite (congrArg txnKey hgid) (keeps_toVec rfl trivial) ?_
  exact own_saveLast hgid

theorem own_setBranch (status : BranchStatus) (branchId : String) :
    OnRecord gid (script (setBranch status gid branchId) c) := by
  rw [script_setBranch]
  apply own_onRecord
  intro tx c hgid
  split
  · trivial
  · exact own_saveLast hgid

theorem own_request (exec : ExecConfig) (r : SagaRequest) : OnRecord r.gid (script (r.handler exec) c) := by
  cases r with
  | submit gid =>
    rw [SagaRequest.handler, script_submit]
    exact own_onRecord fun tx c hgid => own_submitRest hgid
  | abort gid =>
    rw [SagaRequest.handler, script_abort]
    exact own_onRecord fun tx c hgid => own_saveLast hgid
  | addBranch gid branchId action =>
    rw [SagaRequest.handler, script_addBranch]
    apply own_onRecord
    intro tx c hgid
    split
    · trivial
    · exact own_saveLast hgid
  | branchSucceed gid branchId => exact own_setBranch .succeed branchId
  | branchFail gid branchId => exact own_setBranch .failed branchId

/-- **A call touches only the record of its own transaction.** -/
theorem own_call (exec : ExecConfig) {r : SagaCall} (hr : r.Named) : OnRecord r.gid (script (r.handler exec) c) := by
  cases r with
  | start gid mode payload =>
    have hne : gid.isEmpty = false := by simpa [SagaCall.Named] using hr
    rw [SagaCall.handler, script_bind, script_start]
    simp only [hne, Bool.false_eq_true, if_false]
    exact Script.Within.andThen (.tryWrite rfl (keeps_toVec rfl trivial) trivial) fun _ _ => trivial
  | request r =>
    rw [SagaCall.handler, script_bind]
    exact (own_request exec r).andThen fun _ _ => trivial

end Own

/-! ## Isolation -/

/-- The `i`-th call is on the transaction `g`. -/
def isOn (rs : List (SagaCall × World)) (g : String) (i : Nat) : Bool := (rs[i]?).any fun r => r.1.gid == g

/-- In every run of calls the store stays sound, and each step is on the key of the transaction of its call. -/
theorem calling_within (exec : ExecConfig) {st : Kv} (hst : Sound st) {rs : List (SagaCall × World)}
    (hrs : ∀ r ∈ rs, r.1.Named) {tr : Log} {s : Handlers Response} (h : Run (calling exec st rs) tr s) :
    Sound s.store ∧ ∀ t e, (t, e) ∈ tr → ∀ k, e.key? = some k → ∃ r, rs[t.handler]? = some r ∧ k = txnKey r.1.gid := by
  have hi := h.interleaving
  rw [calling_todos] at hi
  obtain ⟨hs, -, hkeys⟩ := hi.within (P := fun i k => ∃ r, rs[i]? = some r ∧ k = txnKey r.1.gid) hst fun i x hx => by
    obtain ⟨r, hr, rfl⟩ := Option.map_eq_some_iff.mp ((List.getElem?_map ..).symm.trans hx)
    have hown := own_call (c := .init r.2) exec (hrs r (List.mem_of_getElem? hr))
    exact hown.mono fun k hk => ⟨r, hr, hk⟩
  exact ⟨hs, hkeys⟩

/-- **A run leaves the store sound**, so the next one may start from it. -/
theorem calling_sound (exec : ExecConfig) {st : Kv} (hst : Sound st) {rs : List (SagaCall × World)}
    (hrs : ∀ r ∈ rs, r.1.Named) {tr : Log} {s : Handlers Response} (h : Run (calling exec st rs) tr s) :
    Sound s.store :=
  (calling_within exec hst hrs h).1

/-- **Transactions are isolated from each other**: with every step of every call on the other transactions deleted, the
calls on `g` end as they did, and so does the record of `g`. -/
theorem transactions_isolated (exec : ExecConfig) {st : Kv} (hst : Sound st) {rs : List (SagaCall × World)}
    (hrs : ∀ r ∈ rs, r.1.Named) {tr : Log} {s : Handlers Response} (h : Run (calling exec st rs) tr s) (g : String) :
    ∃ s', Run (calling exec st rs) (tr.filter fun x => isOn rs g x.1.handler) s' ∧
      s'.store.lookup (txnKey g) = s.store.lookup (txnKey g) ∧
        ∀ i, isOn rs g i = true → s'.procs[i]? = s.procs[i]? := by
  have hkeys := (calling_within exec hst hrs h).2
  obtain ⟨s', hrun, hprocs, hstore⟩ := h.project (isOn rs g) (Q := (· = txnKey g)) (fun t e hm hon k hk => by
    obtain ⟨r, hr, rfl⟩ := hkeys t e hm k hk
    rw [isOn, hr] at hon
    exact congrArg txnKey (by simpa using hon)) fun t e hm hoff k hk => by
    obtain ⟨r, hr, rfl⟩ := hkeys t e hm k hk
    rw [isOn, hr] at hoff
    exact fun heq => absurd (txnKey_injective heq) (by simpa using hoff)
  exact ⟨s', hrun, hstore _ rfl, hprocs⟩

end Calls

section Example

attribute [local instance] Json.serdeJson

def twoTransactions : List (SagaCall × World) :=
  [(.start "g" "" [1], .calm 1), (.request (.addBranch "g:h" "b" "u"), .calm 2), (.start "g:h" "" [2], .calm 3),
    (.request (.submit "g"), .calm 4)]

/-- Two transactions that start and change in turn. -/
theorem transactions_isolated_turns : ∃ tr s s', Run (calling .default ∅ twoTransactions) tr s ∧
    Run (calling .default ∅ twoTransactions) (tr.filter fun x => isOn twoTransactions "g" x.1.handler) s' ∧
      s'.store.lookup (txnKey "g") = s.store.lookup (txnKey "g") := by
  obtain ⟨tr, s, h, -⟩ := run_of_exec (s := calling .default ∅ twoTransactions)
    [.main 0, .main 2, .main 0, .main 2, .main 1, .main 3, .main 1, .main 3, .main 1, .main 3] (fun _ => true)
      (by decide +kernel)
  obtain ⟨s', hrun, hstore, -⟩ := transactions_isolated .default sound_empty
    (by simp [twoTransactions, SagaCall.Named]) h "g"
  exact ⟨tr, s, s', h, hrun, hstore⟩

end Example

end Seata
