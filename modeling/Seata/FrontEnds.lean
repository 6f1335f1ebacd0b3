import Seata.Sequential
import Seata.Serde

/-!
# The two front ends

The REST endpoints `/api/start`, `/api/submit` and `/api/abort`, and the JSON-RPC dispatcher for the same three
operations. The dispatcher takes its parameters through an untagged enumeration whose first variant has only optional
fields: the parameters of a submit or an abort become those of a start, and the dispatcher goes on with an empty gid.

- `respond_http`, `respond_rpc`: a handler responds by the result of its operation and leaves the store of the
  operation;
- `rpc_start`, `rpc_submit`, `rpc_abort`: which operation the dispatcher runs for an accepted object (`heardGid`);
- `front_ends_agree`: on which parameters the dispatcher does what the endpoint does, and **exactly** on which stores.
-/

namespace Seata

open Async Serde

/-! ## Bodies and parameters -/

structure StartBody where
  gid : Option String
  mode : Option String
  payload : Option Bytes

def StartBody.ofFields (fields : List (String × Value)) : Option StartBody := do
  let gid ← optional string "gid" fields
  let mode ← optional string "mode" fields
  let payload ← optional (vec u8) "payload" fields
  return { gid, mode, payload }

def StartBody.deserialize : De StartBody := struct ofFields fun
  | [gid, mode, payload] => do
    let gid ← option string gid
    let mode ← option string mode
    let payload ← option (vec u8) payload
    return { gid, mode, payload }
  | _ => none

structure GidBody where
  gid : String

def GidBody.ofFields (fields : List (String × Value)) : Option GidBody := do
  let gid ← required string "gid" fields
  return { gid }

def GidBody.deserialize : De GidBody := struct ofFields fun
  | [gid] => do
    let gid ← string gid
    return { gid }
  | _ => none

inductive JsonRpcParams where
  | start (gid mode : Option String) (payload : Option Bytes)
  | gid (gid : String)
  | none

/-- The variants in the order of their declarations. -/
def JsonRpcParams.deserialize : De JsonRpcParams := untagged [
  variant fun fields => (StartBody.ofFields fields).map fun body => .start body.gid body.mode body.payload,
  variant fun fields => (GidBody.ofFields fields).map fun body => .gid body.gid,
  fun v => (unit v).map fun _ => .none]

structure JsonRpcReq where
  jsonrpc : String
  method : String
  params : Option JsonRpcParams
  id : Value

def JsonRpcReq.ofFields (fields : List (String × Value)) : Option JsonRpcReq := do
  let jsonrpc ← defaulted string "" "jsonrpc" fields
  let method ← required string "method" fields
  let params ← defaulted (option JsonRpcParams.deserialize) none "params" fields
  let id ← required any "id" fields
  return { jsonrpc, method, params, id }

def JsonRpcReq.deserialize : De JsonRpcReq := struct ofFields fun
  | [jsonrpc, method, params, id] => do
    let jsonrpc ← string jsonrpc
    let method ← string method
    let params ← option JsonRpcParams.deserialize params
    return { jsonrpc, method, params, id }
  | _ => none

/-! ## Responses -/

/-- The body of a response. -/
inductive HttpBody where
  | json (v : Value)
  | text (s : String)

structure HttpResponse where
  status : Nat
  body : HttpBody

structure JsonRpcRes where
  jsonrpc : String
  result : Option Value
  error : Option Value
  id : Value

def gidJson (gid : String) : Value := .object [("gid", .string gid)]

def HttpResponse.ok (r : HttpResponse) : Bool := r.status == 200

def JsonRpcRes.ok (r : JsonRpcRes) : Bool := r.error.isNone

/-- The gid in a response. -/
def gidOf : Value → Option String
  | .object [("gid", .string gid)] => some gid
  | _ => none

def HttpResponse.gid (r : HttpResponse) : Option String :=
  match r.body with
  | .json v => gidOf v
  | .text _ => none

def JsonRpcRes.gid (r : JsonRpcRes) : Option String := r.result.bind gidOf

/-! ## Handlers -/

/-- A handler that always responds. -/
abbrev Handler (ρ : Type) : Type := Prog Bytes Bytes BranchCall Error ρ

section Handlers

variable [SerdeJson]

/-- The response to the result of an operation. -/
def httpResult {α : Type} (body : α → HttpBody) : Except Error α → HttpResponse
  | .ok a => ⟨200, body a⟩
  | .error e => ⟨500, .text e.message⟩

def replyHttp {α : Type} (operation : Server α) (body : α → HttpBody) : Handler HttpResponse := do
  return httpResult body (← operation.run)

def httpStart (body : StartBody) : Handler HttpResponse :=
  replyHttp (start (body.gid.getD "") (body.mode.getD "") (body.payload.getD [])) fun gid => .json (gidJson gid)

def httpSubmit (exec : ExecConfig) (body : GidBody) : Handler HttpResponse :=
  replyHttp (submit exec body.gid) fun _ => .text ""

def httpAbort (body : GidBody) : Handler HttpResponse :=
  replyHttp (abort body.gid) fun _ => .text ""

def rpcError (code : Int) (message : String) : Value := .object [("code", .int code), ("message", .string message)]

/-- The same in the envelope of JSON-RPC. -/
def rpcResult {α : Type} (id : Value) (result : α → Value) : Except Error α → JsonRpcRes
  | .ok a => ⟨"2.0", some (result a), none, id⟩
  | .error e => ⟨"2.0", none, some (rpcError (-32000) e.message), id⟩

def replyRpc {α : Type} (id : Value) (operation : Server α) (result : α → Value) : Handler JsonRpcRes := do
  return rpcResult id result (← operation.run)

def jsonrpcDispatch (exec : ExecConfig) (req : JsonRpcReq) : Handler JsonRpcRes :=
  match req.method with
  | "start" =>
    let (gid, mode, payload) := match req.params with
      | some (.start gid mode payload) => (gid.getD "", mode.getD "", payload.getD [])
      | _ => ("", "", [])
    replyRpc req.id (start gid mode payload) gidJson
  | "submit" =>
    let gid := match req.params with
      | some (.gid gid) => gid
      | _ => ""
    replyRpc req.id (submit exec gid) fun _ => .object []
  | "abort" =>
    let gid := match req.params with
      | some (.gid gid) => gid
      | _ => ""
    replyRpc req.id (abort gid) fun _ => .object []
  | _ => return ⟨"2.0", none, some (rpcError (-32601) "Method not found"), req.id⟩

/-! ## Responses and effects -/

/-- A handler that runs to its end with nobody else: its response and the store it leaves. -/
def respond {ρ : Type} (h : Handler ρ) (w : World) (st : Kv) : ρ × Kv :=
  let y := (resolve h (.init w)).exec st
  (y.2.1.1, y.2.2)

section Respond

variable {α ρ : Type} {operation : Server α} {w : World} {st : Kv}

omit [SerdeJson] in
/-- A handler responds by the result of its operation and leaves the store of the operation. -/
theorem respond_run (f : Except Error α → ρ) :
    respond (operation.run >>= fun r => pure (f r)) w st =
      (f (complete operation w st).1, (complete operation w st).2) := by
  simp only [respond, complete, script, resolve_bind, Script.exec_bind]
  rfl

omit [SerdeJson] in
theorem respond_http (body : α → HttpBody) :
    respond (replyHttp operation body) w st =
      (httpResult body (complete operation w st).1, (complete operation w st).2) :=
  respond_run _

omit [SerdeJson] in
theorem respond_rpc (id : Value) (result : α → Value) :
    respond (replyRpc id operation result) w st =
      (rpcResult id result (complete operation w st).1, (complete operation w st).2) :=
  respond_run _

end Respond

/-- The operations that both front ends have. -/
inductive Method where
  | start
  | submit
  | abort
  deriving DecidableEq, Repr

def Method.name : Method → String
  | .start => "start"
  | .submit => "submit"
  | .abort => "abort"

/-- The endpoint of the method, if it accepts the body. -/
def Method.http (exec : ExecConfig) (body : Value) : Method → Option (Handler HttpResponse)
  | .start => (StartBody.deserialize body).map httpStart
  | .submit => (GidBody.deserialize body).map (httpSubmit exec)
  | .abort => (GidBody.deserialize body).map httpAbort

/-- The JSON-RPC request of the method with these parameters. -/
def Method.request (params id : Value) (m : Method) : Value :=
  .object [("jsonrpc", .string "2.0"), ("method", .string m.name), ("params", params), ("id", id)]

/-- The dispatcher on this request, if it is accepted. -/
def Method.rpc (exec : ExecConfig) (params id : Value) (m : Method) : Option (Handler JsonRpcRes) :=
  (JsonRpcReq.deserialize (m.request params id)).map (jsonrpcDispatch exec)

/-- The dispatcher accepts the request and does what the endpoint does: it leaves the same store, succeeds exactly when
the endpoint does, and returns the same gid. -/
def Agree (w : World) (st : Kv) (rpc : Option (Handler JsonRpcRes)) (http : Handler HttpResponse) : Prop :=
  ∃ h, rpc = some h ∧ (respond h w st).2 = (respond http w st).2 ∧ (respond h w st).1.ok = (respond http w st).1.ok ∧
    (respond h w st).1.gid = (respond http w st).1.gid

/-- What the request of an object becomes. -/
theorem rpc_object (exec : ExecConfig) (fields : List (String × Value)) (id : Value) (m : Method) :
    m.rpc exec (.object fields) id = (JsonRpcParams.deserialize (.object fields)).map fun params =>
      jsonrpcDispatch exec ⟨"2.0", m.name, some params, id⟩ := by
  rw [Method.rpc, Method.request, JsonRpcReq.deserialize, struct, JsonRpcReq.ofFields]
  cases h : JsonRpcParams.deserialize (.object fields) <;> simp [defaulted, required, field, string, any, option, h]

omit [SerdeJson] in
/-- The same operation behind both front ends. -/
theorem agree_same {α : Type} {operation : Server α} {id : Value} {result : α → Value} {body : α → HttpBody}
    (hgid : ∀ a, (rpcResult id result (.ok a)).gid = (httpResult body (.ok a)).gid) (w : World) (st : Kv) :
    Agree w st (some (replyRpc id operation result)) (replyHttp operation body) := by
  refine ⟨_, rfl, ?_⟩
  rw [respond_rpc, respond_http]
  cases (complete operation w st).1 with
  | ok a => exact ⟨rfl, rfl, hgid a⟩
  | error e => exact ⟨rfl, rfl, rfl⟩

omit [SerdeJson] in
/-- Two operations without a result behind the two front ends. -/
theorem agree_unit {x y : Server Unit} {id v : Value} {s : String} (hv : gidOf v = none) (w : World) (st : Kv) :
    Agree w st (some (replyRpc id x fun _ => v)) (replyHttp y fun _ => .text s) ↔
      (complete x w st).2 = (complete y w st).2 ∧ (complete x w st).1.isOk = (complete y w st).1.isOk := by
  rw [Agree]
  simp only [Option.some.injEq, exists_eq_left', respond_rpc, respond_http]
  refine and_congr_right fun _ => ?_
  cases (complete x w st).1 <;> cases (complete y w st).1 <;>
    simp [rpcResult, httpResult, JsonRpcRes.ok, HttpResponse.ok, JsonRpcRes.gid, HttpResponse.gid, hv, Except.isOk,
      Except.toBool]

/-! ## Records that an operation leaves as they are -/

/-- What the method makes of a record. -/
def Method.change (w : World) : Method → GlobalTxn → GlobalTxn
  | .start, tx => tx
  | .submit, tx => tx.submitted w
  | .abort, tx => tx.aborted (w.clock 0)

/-- The record is as the method would leave it: all branches have their outcomes, and the status and the time are those
that it would write. -/
def Method.Settled (w : World) : Method → GlobalTxn → Prop
  | .start, _ => True
  | .submit, tx => Resolved tx.branches ∧ tx.status = finalStatus tx.branches ∧ tx.updatedUnix = w.clock 2
  | .abort, tx => Resolved tx.branches ∧ tx.status = .aborted ∧ tx.updatedUnix = w.clock 0

omit [SerdeJson] in
theorem change_eq_iff {w : World} {m : Method} {tx : GlobalTxn} : m.change w tx = tx ↔ m.Settled w tx := by
  cases m with
  | start => exact iff_of_true rfl trivial
  | submit =>
    constructor
    · intro h
      have hb : (tx.submitted w).branches = tx.branches := congrArg GlobalTxn.branches h
      have hr : Resolved tx.branches := hb ▸ tx.outcomes_resolved w
      refine ⟨hr, ?_, (congrArg GlobalTxn.updatedUnix h).symm⟩
      rw [← hb]
      exact (congrArg GlobalTxn.status h).symm
    · rintro ⟨hr, hs, ht⟩
      have ho : tx.outcomes w = tx.branches := outcomes_of_resolved hr w
      show ({ tx with
        branches := tx.outcomes w, status := finalStatus (tx.outcomes w), updatedUnix := w.clock 2 } : GlobalTxn) = tx
      rw [ho, ← hs, ← ht]
  | abort =>
    constructor
    · intro h
      have hb : (tx.aborted (w.clock 0)).branches = tx.branches := congrArg GlobalTxn.branches h
      exact ⟨hb ▸ (tx.aborted_terminal _).resolved, (congrArg GlobalTxn.status h).symm,
        (congrArg GlobalTxn.updatedUnix h).symm⟩
    · rintro ⟨hr, hs, ht⟩
      have hb : tx.branches.map failUnlessSucceed = tx.branches := by
        rw [List.map_congr_left (g := id) fun b hb => ?_, List.map_id]
        have hp := hr b hb
        unfold failUnlessSucceed
        obtain ⟨id, action, status⟩ := b
        cases status <;> first | rfl | exact absurd rfl hp
      show ({ tx with
        branches := tx.branches.map failUnlessSucceed, status := .aborted, updatedUnix := w.clock 0 } : GlobalTxn) = tx
      rw [hb, ← hs, ← ht]

/-- **Two transactions changed alike** are two that the change leaves as they are. -/
theorem changed_eq_iff {st : Kv} (h : Sound st) {f : GlobalTxn → GlobalTxn} {g g' : String} (hne : g ≠ g') :
    changed f st g = changed f st g' ↔
      (∀ tx, record st g = some tx → f tx = tx) ∧ (∀ tx, record st g' = some tx → f tx = tx) := by
  constructor
  · intro heq
    have hg : (record st g).map f = record st g := by
      have hr := record_changed f st g g
      rwa [if_pos rfl, heq, record_changed, if_neg hne, eq_comm] at hr
    have hg' : (record st g').map f = record st g' := by
      have hr := record_changed f st g' g'
      rwa [if_pos rfl, ← heq, record_changed, if_neg (Ne.symm hne), eq_comm] at hr
    constructor
    · intro tx htx
      rw [htx, Option.map_some] at hg
      exact Option.some.inj hg
    · intro tx htx
      rw [htx, Option.map_some] at hg'
      exact Option.some.inj hg'
  · rintro ⟨hg, hg'⟩
    have hself {gid : String} (hf : ∀ tx, record st gid = some tx → f tx = tx) : changed f st gid = st := by
      unfold changed
      cases hr : record st gid with
      | none => rfl
      | some tx =>
        dsimp only
        rw [hf tx hr]
        exact Script.insert_self (by rw [h.lookup, hr, Option.map_some])
    rw [hself hg, hself hg']

/-! ## Agreement -/

omit [SerdeJson] in
theorem params_start {fields : List (String × Value)} {body : StartBody} (h : StartBody.ofFields fields = some body) :
    JsonRpcParams.deserialize (.object fields) = some (.start body.gid body.mode body.payload) :=
  untagged_of_accepted (by rw [variant, h, Option.map_some]) _

omit [SerdeJson] in
theorem params_gid {fields : List (String × Value)} {body : GidBody} (hs : StartBody.ofFields fields = none)
    (h : GidBody.ofFields fields = some body) : JsonRpcParams.deserialize (.object fields) = some (.gid body.gid) := by
  rw [JsonRpcParams.deserialize, untagged_of_rejected (by rw [variant, hs, Option.map_none])]
  exact untagged_of_accepted (by rw [variant, h, Option.map_some]) _

/-- The gid that the dispatcher hears in the parameters of a submit or an abort. -/
def heardGid (fields : List (String × Value)) (body : GidBody) : String :=
  if (StartBody.ofFields fields).isSome then "" else body.gid

theorem rpc_start (exec : ExecConfig) {fields : List (String × Value)} {body : StartBody}
    (h : StartBody.ofFields fields = some body) (id : Value) : Method.start.rpc exec (.object fields) id =
      some (replyRpc id (start (body.gid.getD "") (body.mode.getD "") (body.payload.getD [])) gidJson) := by
  rw [rpc_object, params_start h]
  rfl

theorem rpc_submit (exec : ExecConfig) {fields : List (String × Value)} {body : GidBody}
    (h : GidBody.ofFields fields = some body) (id : Value) : Method.submit.rpc exec (.object fields) id =
      some (replyRpc id (submit exec (heardGid fields body)) fun _ => .object []) := by
  rw [rpc_object, heardGid]
  cases hs : StartBody.ofFields fields with
  | none =>
    rw [params_gid hs h]
    rfl
  | some start =>
    rw [params_start hs]
    rfl

theorem rpc_abort (exec : ExecConfig) {fields : List (String × Value)} {body : GidBody}
    (h : GidBody.ofFields fields = some body) (id : Value) : Method.abort.rpc exec (.object fields) id =
      some (replyRpc id (abort (heardGid fields body)) fun _ => .object []) := by
  rw [rpc_object, heardGid]
  cases hs : StartBody.ofFields fields with
  | none =>
    rw [params_gid hs h]
    rfl
  | some start =>
    rw [params_start hs]
    rfl

/-- The dispatcher hears what the endpoint hears: the method is start, or the parameters are not also those of a start,
or the gid is empty. -/
def Heard (m : Method) (fields : List (String × Value)) : Prop :=
  m = .start ∨ StartBody.ofFields fields = none ∨ (GidBody.ofFields fields).map GidBody.gid = some ""

omit [SerdeJson] in
theorem heardGid_eq_iff {m : Method} (hm : m ≠ .start) {fields : List (String × Value)} {body : GidBody}
    (h : GidBody.ofFields fields = some body) : heardGid fields body = body.gid ↔ Heard m fields := by
  rw [heardGid, Heard, h]
  cases StartBody.ofFields fields with
  | none => simp
  | some start =>
    constructor
    · exact fun heq => .inr (.inr (congrArg some heq.symm))
    · rintro (hs | hs | heq)
      · exact absurd hs hm
      · cases hs
      · exact (Option.some.inj heq).symm

/-- An operation that changes one record, behind both front ends. -/
theorem agree_operation {op : String → Server Unit} {f : World → GlobalTxn → GlobalTxn}
    (hop : ∀ w st gid, w.Reliable → Sound st → (complete (op gid) w st).1 = .ok () ∧
      (complete (op gid) w st).2 = changed (f w) st gid)
    {m : Method} (hm : m ≠ .start) (hf : ∀ w tx, f w tx = tx ↔ m.Settled w tx) {fields : List (String × Value)}
    {body : GidBody} (h : GidBody.ofFields fields = some body) (id : Value) :
    (Heard m fields → ∀ w st, Agree w st (some (replyRpc id (op (heardGid fields body)) fun _ => .object []))
        (replyHttp (op body.gid) fun _ => .text "")) ∧
      ∀ w st, w.Reliable → Sound st → (Agree w st (some (replyRpc id (op (heardGid fields body)) fun _ => .object []))
        (replyHttp (op body.gid) fun _ => .text "") ↔ Heard m fields ∨
          ∀ gid tx, gid = "" ∨ gid = body.gid → record st gid = some tx → m.Settled w tx) := by
  have hsame (hh : Heard m fields) (w : World) (st : Kv) : Agree w st
      (some (replyRpc id (op (heardGid fields body)) fun _ => .object []))
        (replyHttp (op body.gid) fun _ => .text "") := by
    rw [(heardGid_eq_iff hm h).mpr hh]
    exact agree_same (fun _ => rfl) w st
  refine ⟨hsame, fun w st hw hst => ?_⟩
  by_cases hh : Heard m fields
  · exact iff_of_true (hsame hh w st) (.inl hh)
  · have hne : heardGid fields body ≠ body.gid := fun heq => hh ((heardGid_eq_iff hm h).mp heq)
    have hempty : heardGid fields body = "" := by
      unfold heardGid at hne ⊢
      split at hne
      · rw [if_pos ‹_›]
      · exact absurd rfl hne
    obtain ⟨hok, hstore⟩ := hop w st (heardGid fields body) hw hst
    obtain ⟨hok', hstore'⟩ := hop w st body.gid hw hst
    rw [agree_unit rfl, hok, hok', hstore, hstore', changed_eq_iff hst hne, hempty]
    simp only [hf, and_true, hh, false_or]
    constructor
    · rintro ⟨hg, hg'⟩ gid tx (rfl | rfl) htx
      · exact hg tx htx
      · exact hg' tx htx
    · exact fun hall => ⟨fun tx => hall "" tx (.inl rfl), fun tx => hall body.gid tx (.inr rfl)⟩

/-- On the stores of the server the front ends agree exactly when the dispatcher hears the gid, or the operation changes
nothing. -/
theorem agree_iff (exec : ExecConfig) {m : Method} {fields : List (String × Value)} {http : Handler HttpResponse}
    (h : m.http exec (.object fields) = some http) (id : Value) :
    (Heard m fields → ∀ w st, Agree w st (m.rpc exec (.object fields) id) http) ∧
      ∀ w st, w.Reliable → Sound st → (Agree w st (m.rpc exec (.object fields) id) http ↔ Heard m fields ∨
        ∀ gid tx, gid = "" ∨ (GidBody.ofFields fields).map GidBody.gid = some gid → record st gid = some tx →
          m.Settled w tx) := by
  cases m with
  | start =>
    obtain ⟨body, hbody, rfl⟩ := Option.map_eq_some_iff.mp h
    have hall (w : World) (st : Kv) : Agree w st (Method.start.rpc exec (.object fields) id) (httpStart body) := by
      rw [rpc_start exec hbody]
      exact agree_same (fun _ => rfl) w st
    exact ⟨fun _ => hall, fun w st _ _ => iff_of_true (hall w st) (.inl (.inl rfl))⟩
  | submit =>
    obtain ⟨body, hbody, rfl⟩ := Option.map_eq_some_iff.mp h
    have hbody : GidBody.ofFields fields = some body := hbody
    rw [rpc_submit exec hbody, hbody]
    simp only [Option.map_some, Option.some.injEq, eq_comm (a := body.gid)]
    exact agree_operation (f := fun w tx => tx.submitted w)
      (fun w st gid hw hst => changes_submit hw hst rfl exec) (by decide)
      (fun w tx => change_eq_iff (m := .submit)) hbody id
  | abort =>
    obtain ⟨body, hbody, rfl⟩ := Option.map_eq_some_iff.mp h
    have hbody : GidBody.ofFields fields = some body := hbody
    rw [rpc_abort exec hbody, hbody]
    simp only [Option.map_some, Option.some.injEq, eq_comm (a := body.gid)]
    exact agree_operation (f := fun w tx => tx.aborted (w.clock 0))
      (fun w st gid hw hst => changes_abort hw hst) (by decide)
      (fun w tx => change_eq_iff (m := .abort)) hbody id

theorem sound_holding (tx : GlobalTxn) : Sound (holding tx) :=
  Script.lookup_insert_of sound_empty (keeps_toVec rfl trivial)

omit [SerdeJson] in
/-- A method that is not heard changes a new transaction with an empty gid. -/
theorem not_settled_new {m : Method} {fields : List (String × Value)} (hm : ¬ Heard m fields) (w : World) :
    ¬ m.Settled w (.new "" "saga" [] 0) := by
  cases m with
  | start => exact absurd (.inl rfl) hm
  | submit => exact fun hs => absurd hs.2.1 (by decide)
  | abort => exact fun hs => absurd hs.2.1 (by decide)

/-- **The two front ends** agree on an accepted object, on every store, if and only if the dispatcher hears its gid. On
one store of the server, with working storage calls, they agree just then, or when neither the transaction nor one with
an empty gid is stored in a state that the operation would change. -/
theorem front_ends_agree (exec : ExecConfig) {m : Method} {fields : List (String × Value)} {http : Handler HttpResponse}
    (h : m.http exec (.object fields) = some http) (id : Value) :
    ((∀ w st, Agree w st (m.rpc exec (.object fields) id) http) ↔ Heard m fields) ∧
      ∀ w st, w.Reliable → Sound st → (Agree w st (m.rpc exec (.object fields) id) http ↔ Heard m fields ∨
        ∀ gid tx, gid = "" ∨ (GidBody.ofFields fields).map GidBody.gid = some gid → record st gid = some tx →
          m.Settled w tx) := by
  obtain ⟨hall, hiff⟩ := agree_iff exec h id
  refine ⟨⟨fun hagree => ?_, hall⟩, hiff⟩
  by_contra hn
  have hw : (Env.calm 1 : World).Reliable := fun _ => rfl
  have hsettled := ((hiff (.calm 1) _ hw (sound_holding (.new "" "saga" [] 0))).mp (hagree _ _)).resolve_left hn
  exact not_settled_new hn _ (hsettled "" _ (.inl rfl) ((stored_holding (.new "" "saga" [] 0)).record rfl))

end Handlers

section Example

attribute [local instance] Json.serdeJson

/-- A transaction that can be submitted. -/
def submittable : GlobalTxn := ⟨"g", "saga", .submitted, [], [], 1, 1⟩

/-- A submit with nothing but the gid. -/
theorem submit_unheard :
    ¬ ∀ (exec : ExecConfig) (m : Method) (fields : List (String × Value)) (http : Handler HttpResponse)
    (id : Value) (w : World) (st : Kv), m.http exec (.object fields) = some http → w.Reliable →
      Agree w st (m.rpc exec (.object fields) id) http := by
  intro h
  have hagree := h .default .submit [("gid", .string "g")] (httpSubmit .default ⟨"g"⟩) (.int 1) (.calm 2)
    (holding submittable) rfl
    (by simp [Env.Reliable, Env.calm])
  have hbody : GidBody.ofFields [("gid", .string "g")] = some ⟨"g"⟩ := rfl
  rw [rpc_submit .default hbody, httpSubmit, agree_unit rfl] at hagree
  have hlookup := congrArg (fun st : Kv => st.lookup (txnKey "g")) hagree.1
  revert hlookup
  decide +kernel

/-- A submit whose parameters are not those of a start. -/
theorem submit_heard : Agree (.calm 2) (holding submittable)
    (Method.submit.rpc .default (.object [("gid", .string "g"), ("mode", .int 1)]) (.int 1))
      (httpSubmit .default ⟨"g"⟩) :=
  (front_ends_agree .default rfl (.int 1)).1.mpr (.inr (.inl rfl)) (.calm 2) (holding submittable)

end Example

end Seata
