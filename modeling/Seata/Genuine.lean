import Seata.Clients
import Seata.Integrity
import Seata.Payload
import Seata.Async.Tasks

/-!
# What participants and clients are told

In every interleaving of calls of any front end, from an empty store and with any faults:

- `calls_genuine`: **whatever is posted to a participant was asked for**: the address and the branch id come from one
  request that supplied the branch, the mode and the payload from one start, and the payload decodes to what was
  started;
- `reads_genuine`: **whatever a client reads is a record of the transaction that it asked for**, within its integrity.
-/

namespace Seata

open Async

/-! ## Calls that were asked for -/

/-- The start gave the call its mode and its payload. -/
def CalledBy (r : Request × World) (c : BranchCall) : Prop :=
  ∃ gid mode payload, r.1 = .start gid mode payload ∧ c.gid = (if gid.isEmpty then r.2.id else gid) ∧
    c.mode = (if mode.isEmpty then "saga" else mode) ∧ Base64.decode c.payload = some payload

/-- The call is one that the requests ask for. -/
structure Genuine (rs : List (Request × World)) (c : BranchCall) : Prop where
  supplied : Supplied rs c.gid c.branchId c.url
  started : ∃ r ∈ rs, CalledBy r c

/-- The calls of a record within its integrity. -/
theorem Integrity.genuine {rs : List (Request × World)} {g : String} {tx : GlobalTxn} (h : Integrity rs g tx)
    {x : BranchCall} (hx : x ∈ tx.calls) : Genuine rs x := by
  simp only [GlobalTxn.calls, callsOf, List.mem_map, List.mem_filter] at hx
  obtain ⟨⟨b, i⟩, ⟨hmem, -⟩, rfl⟩ := hx
  have hb : b ∈ tx.branches := List.fst_mem_of_mem_zipIdx hmem
  obtain ⟨r, hr, gid, mode, payload, hstart, hgid, hmode, hpayload, -⟩ := h.started
  refine ⟨?_, r, hr, gid, mode, payload, hstart, ?_, hmode, ?_⟩
  · show Supplied rs tx.gid b.branchId b.action
    rw [h.gid]
    exact h.supplied b hb
  · exact h.gid.trans hgid
  · show Base64.decode (Base64.encode tx.payload) = _
    rw [Base64.decode_encode, hpayload]

/-- What the calls ask for, as far as it is a request. -/
def Operation.request? : Operation × World → Option (Request × World)
  | (.request r, w) => some (r, w)
  | _ => none

def requestsOf (cs : List (ApiCall × World)) : List (Request × World) := (operations cs).filterMap Operation.request?

section Genuine

variable [SerdeJson]

/-- A handler keeps the records within their integrity, and posts only what was asked for. -/
theorem upholds_genuine (exec : ExecConfig) {rs : List (Request × World)} {r : Request × World} (hr : r ∈ rs) :
    Upholds Set.univ (integral rs) (integral rs) anyMark (Genuine rs) (script (r.1.handler exec) (.init r.2)) := by
  have hof := integral_ofFrame rs
  have hset (status : BranchStatus) (gid branchId : String) (c : Core BranchCall Error) :
      Upholds Set.univ (integral rs) (integral rs) anyMark (Genuine rs) (script (setBranch status gid branchId) c) :=
    upholds_setBranch status branchId (Set.mem_univ _) fun tx _ _ _ h hbs =>
      hof tx _ (GlobalTxn.withBranches_frame hbs).symm h
  obtain ⟨r, w⟩ := r
  cases r <;> refine upholds_returning ?_
  case start gid mode payload =>
    refine upholds_start ?_
    rintro tx ⟨⟩
    exact Integrity.new hr rfl
  case submit gid =>
    refine upholds_submit exec (Set.mem_univ _) (fun tx n₁ _ h => ?_) fun tx _ h x hx => (h tx rfl).genuine hx
    have h₁ : integral rs (some (tx.committing n₁)) := hof tx _ (by simp) h
    have h₂ (e : World) (n₂ : Int) : integral rs (some ((tx.committing n₁).decided e n₂)) := hof _ _ (by simp) h₁
    exact ⟨h₁, fun e n₂ => ⟨h₂ e n₂, fun n₃ => hof _ _ (GlobalTxn.finalized_frame _ _).symm (h₂ e n₂)⟩⟩
  case abort gid => exact upholds_abort (Set.mem_univ _) fun tx _ _ h => hof tx _ (by simp) h
  case addBranch gid branchId action =>
    refine upholds_addBranch (Set.mem_univ _) fun tx now hgid h hnew => ?_
    rintro tx' ⟨⟩
    exact hgid ▸ (h tx rfl).withBranch now ⟨_, hr, .inl (by rw [hgid])⟩ hnew
  case branchTry gid branchId action =>
    refine upholds_guarded trivial fun _ _ => upholds_addBranch (Set.mem_univ _) fun tx now hgid h hnew => ?_
    rintro tx' ⟨⟩
    exact hgid ▸ (h tx rfl).withBranch now ⟨_, hr, .inr (by rw [hgid])⟩ hnew
  case branchSucceed gid branchId => exact upholds_guarded trivial fun _ _ => hset _ _ _ _
  case branchFail gid branchId => exact upholds_guarded trivial fun _ _ => hset _ _ _ _

/-! ## Results -/

/-- The result of the operation is true: what it finds is a record of the transaction that it asks for. -/
def Truthful (rs : List (Request × World)) (o : Operation) : Except Error Outcome → Prop
  | .ok (.found (some tx)) => ∃ g, o = .get g ∧ Integrity rs g tx
  | _ => True

/-- **All that an operation does is genuine**: what it saves, what it posts and what it answers. -/
theorem guarantees_program (exec : ExecConfig) {rs : List (Request × World)} {o : Operation × World}
    (ho : ∀ r, Operation.request? o = some r → r ∈ rs) :
    (script (o.1.program exec) (.init o.2)).Guarantees (Keeps Set.univ (integral rs) anyMark)
      (fun k v => Keeps Set.univ (integral rs) anyMark k (some v)) (Genuine rs) fun b => Truthful rs o.1 b.1 := by
  obtain ⟨o, w⟩ := o
  cases o with
  | request r =>
    rw [Operation.program, script_bind]
    exact (upholds_genuine exec (ho (r, w) rfl)).andThen (fun _ _ _ => trivial) fun _ _ _ => trivial
  | get gid =>
    rw [Operation.program, load, script_bind, script_bind, script_get, Script.tryRead_andThen, Script.tryRead_andThen]
    refine .tryRead (fun v hv => ?_) fun _ => trivial
    obtain ⟨found, rfl, hgid, hI⟩ := hv.1 gid (Set.mem_univ _) rfl
    cases found with
    | none => simp [Script.Guarantees, Truthful]
    | some tx =>
      simp only [Option.map_some, SerdeJson.fromSlice_toVec, Script.done_ok_andThen, script_pure]
      exact ⟨gid, rfl, hgid tx rfl ▸ hI tx rfl⟩
  | unknown => trivial

/-- A record in a store within the invariant. -/
theorem record_of_keeps {P : GlobalTxn → Prop} {M : Bytes → Option Bytes → Prop} {st : Kv}
    (h : ∀ k, Keeps Set.univ (fun o => ∀ tx, o = some tx → P tx) M k (st.lookup k)) {g : String} {tx : GlobalTxn}
    (htx : record st g = some tx) : tx.gid = g ∧ P tx := by
  obtain ⟨o, ho, hgid, hP⟩ := (h (txnKey g)).1 g (Set.mem_univ _) rfl
  obtain rfl : o = some tx := by
    rw [← htx, record, ho]
    cases o <;> simp [Except.toOption]
  exact ⟨hgid tx rfl, hP tx rfl⟩

/-- Along every run of operations, the store, the spawned calls and the results are genuine. -/
theorem run_genuine {exec : ExecConfig} {cs : List (ApiCall × World)} {tr : Log} {s : Handlers Outcome}
    (h : Run (operating exec ∅ (operations cs)) tr s) :
    (∀ k, Keeps Set.univ (integral (requestsOf cs)) anyMark k (s.store.lookup k)) ∧
      (∀ (i : Nat) (p : Proc Bytes Bytes BranchCall Error (Except Error Outcome)) (r : Except Error Outcome),
        s.procs[i]? = some p → p.prog = .ret r → ∃ c, cs[i]? = some c ∧ Truthful (requestsOf cs) c.1.operation r) ∧
      ∀ t c, (t, .spawn c) ∈ tr → Genuine (requestsOf cs) c := by
  have hempty (k : Bytes) : Keeps Set.univ (integral (requestsOf cs)) anyMark k ((∅ : Kv).lookup k) :=
    ⟨fun _ _ _ => ⟨none, by simp, by simp, fun tx htx => by cases htx⟩, fun _ _ _ _ => trivial⟩
  have hall (i : Nat) (x : Action Outcome) (hx : (operating exec ∅ (operations cs)).todos[i]? = some x) :
      x.Guarantees (Keeps Set.univ (integral (requestsOf cs)) anyMark)
        (fun k v => Keeps Set.univ (integral (requestsOf cs)) anyMark k (some v)) (Genuine (requestsOf cs))
        fun b => ∃ c, cs[i]? = some c ∧ Truthful (requestsOf cs) c.1.operation b.1 := by
    obtain ⟨c, hc, rfl⟩ := getElem?_operating.mp hx
    have hmem : (c.1.operation, c.2) ∈ operations cs := List.mem_map_of_mem (List.mem_of_getElem? hc)
    exact (guarantees_program exec fun r hr => List.mem_filterMap.mpr ⟨_, hmem, hr⟩).mono (fun _ _ h => h)
      (fun _ _ h => h) (fun _ h => h) fun b hb => ⟨c, hc, hb⟩
  obtain ⟨hstore, htodos, -, hspawn⟩ := h.interleaving.guarantees hempty hall fun _ _ _ _ hv => hv
  exact ⟨hstore, fun i p r hp hr => htodos i _ (getElem?_todos hp hr), hspawn⟩

/-! ## What leaves the server -/

variable {exec : ExecConfig} {cs : List (ApiCall × World)} {tr : Log} {s : Pool Bytes Bytes BranchCall Error ApiReply}

/-- **Whatever is posted was asked for**, in every run from an empty store. -/
theorem calls_genuine (h : Run (arriving exec ∅ cs) tr s) {t : Turn} {e : Event Bytes Bytes BranchCall}
    {c : BranchCall} (hm : (t, e) ∈ tr) (he : e.attempts c) : Genuine (requestsOf cs) c := by
  have hspawned := h.spawned_before hm he
  rw [arriving_eq] at h
  obtain ⟨r, hr, -⟩ := run_replying_iff.mp h
  exact (run_genuine hr).2.2 _ c hspawned

/-- A record in a reply is that of the transaction that the call asks for. -/
theorem replied_genuine {q : Handlers Outcome} (hq : Run (operating exec ∅ (operations cs)) tr q) {i : Nat} {v : Bytes}
    (hv : Replied (q.replying (replyOf cs)) i (.record v)) :
    ∃ c g tx, cs[i]? = some c ∧ c.1.operation = .get g ∧ v = toVec tx ∧ Integrity (requestsOf cs) g tx := by
  obtain ⟨p, r, hp, hr, hmeaning⟩ := (replied_iff hq).mp hv
  obtain ⟨c, hc, htrue⟩ := (run_genuine hq).2.1 i p r hp hr
  rcases r with e | (_ | _) | (_ | tx) <;> simp only [resultMeaning, reduceCtorEq] at hmeaning
  obtain ⟨g, hg, hI⟩ := htrue
  exact ⟨c, g, tx, hc, hg, (Meaning.record.inj hmeaning).symm, hI⟩

/-- **Whatever a client reads is a record of the transaction that it asked for**, in every run from an empty store. -/
theorem reads_genuine (h : Run (arriving exec ∅ cs) tr s) {i : Nat} {v : Bytes} (hv : Replied s i (.record v)) :
    ∃ c g tx, cs[i]? = some c ∧ c.1.operation = .get g ∧ v = toVec tx ∧ Integrity (requestsOf cs) g tx := by
  rw [arriving_eq] at h
  obtain ⟨q, hq, rfl⟩ := run_replying_iff.mp h
  exact replied_genuine hq hv

end Genuine

section Example

attribute [local instance] Json.serdeJson

/-- The branch is called with what was started and added. -/
theorem calls_genuine_mixed : Genuine (requestsOf mixedCalls) ⟨"http://b", "g", "b", "saga", "AQI=", 0⟩ := by
  obtain ⟨tr, s, h, hq⟩ := run_of_exec (s := arriving .default ∅ mixedCalls)
    [.main 0, .main 0, .main 1, .main 1, .main 1, .main 2, .main 2, .main 2, .main 2, .main 2, .main 2, .task 2 0]
    (fun x => List.elem (.task 2 0, .post ⟨"http://b", "g", "b", "saga", "AQI=", 0⟩ true) x.1) (by decide +kernel)
  exact calls_genuine h (List.mem_of_elem_eq_true hq) rfl

/-- The get finds the record between the start and the new branch. -/
theorem reads_genuine_mixed : ∃ c g tx, mixedCalls[3]? = some c ∧ c.1.operation = .get g ∧
    toVec ⟨"g", "saga", .submitted, [1, 2], [], 1, 1⟩ = toVec tx ∧ Integrity (requestsOf mixedCalls) g tx := by
  obtain ⟨tr, s, h, hq⟩ := run_of_exec (s := arriving .default ∅ mixedCalls) [.main 0, .main 0, .main 3]
    (fun x => decide (Replied x.2 3 (.record (toVec ⟨"g", "saga", .submitted, [1, 2], [], 1, 1⟩)))) (by decide +kernel)
  exact reads_genuine h (of_decide_eq_true hq)

end Example

end Seata
