import Seata.FrontEnds
import Seata.Json
import Seata.Paging
import Seata.Async.Replies

/-!
# The calls of the three front ends

The REST endpoints, the gRPC service and the JSON-RPC dispatcher answer the same operations in their own ways. The
endpoints that read, and the methods of the service that list, are here too.

- `handler_eq`: **the handler of a call performs its operation and replies to the result**, whichever front end it
  belongs to;
- `reply_meaning`: what a client learns from the reply is the result;
- `exists_sent`: every request of the gRPC service that is not too large can be sent to an endpoint instead.
-/

namespace Seata

open Async Serde

/-! ## Bodies -/

structure BranchBody where
  gid : String
  branchId : String
  action : String

def BranchBody.ofFields (fields : List (String × Value)) : Option BranchBody := do
  let gid ← required string "gid" fields
  let branchId ← required string "branch_id" fields
  let action ← required string "action" fields
  return { gid, branchId, action }

def BranchBody.deserialize : De BranchBody := struct ofFields fun
  | [gid, branchId, action] => do
    let gid ← string gid
    let branchId ← string branchId
    let action ← string action
    return { gid, branchId, action }
  | _ => none

/-- It has the fields of a `BranchBody`. -/
abbrev BranchTryBody : Type := BranchBody

structure BranchStateBody where
  gid : String
  branchId : String

def BranchStateBody.ofFields (fields : List (String × Value)) : Option BranchStateBody := do
  let gid ← required string "gid" fields
  let branchId ← required string "branch_id" fields
  return { gid, branchId }

def BranchStateBody.deserialize : De BranchStateBody := struct ofFields fun
  | [gid, branchId] => do
    let gid ← string gid
    let branchId ← string branchId
    return { gid, branchId }
  | _ => none

/-- The body of a response that reads. -/
inductive ReadBody where
  | record (tx : GlobalTxn)
  | records (txs : List GlobalTxn)
  | text (s : String)
  deriving DecidableEq, Repr

structure ReadResponse where
  status : Nat
  body : ReadBody
  deriving DecidableEq, Repr

section Handlers

variable [SerdeJson]

/-! ## REST endpoints -/

namespace Http

def ok : HttpResponse := ⟨200, .text ""⟩

def internal (e : Error) : HttpResponse := ⟨500, .text e.message⟩

def branchAdd (body : BranchBody) : Handler HttpResponse := do
  match ← (addBranch body.gid body.branchId body.action).run with
  | .ok () => return ok
  | .error e => return internal e

/-- What the endpoints behind the barrier share. -/
def guarded (phase : BarrierPhase) (gid branchId : String) (operation : Server Unit) : Handler HttpResponse := do
  match ← (Barrier.insert gid branchId phase).run with
  | .ok false => return ok
  | .error e => return internal e
  | .ok true =>
    match ← operation.run with
    | .ok () => return ok
    | .error e => return internal e

def branchSucceed (body : BranchStateBody) : Handler HttpResponse :=
  guarded .confirm body.gid body.branchId (Seata.branchSucceed body.gid body.branchId)

def branchTry (body : BranchTryBody) : Handler HttpResponse :=
  guarded .tryPhase body.gid body.branchId (addBranch body.gid body.branchId body.action)

def branchFail (body : BranchStateBody) : Handler HttpResponse :=
  guarded .cancel body.gid body.branchId (Seata.branchFail body.gid body.branchId)

def getTx (gid : String) : Handler ReadResponse := do
  match ← (load gid).run with
  | .ok (some tx) => return ⟨200, .record tx⟩
  | .ok none => return ⟨404, .text ""⟩
  | .error e => return ⟨500, .text e.message⟩

def listTx (st : Kv) (q : Query) : ReadResponse :=
  match httpListTx st q with
  | .ok list => ⟨200, .records list⟩
  | .error e => ⟨500, .text e.message⟩

end Http

/-- A call of a REST endpoint whose body is accepted. -/
inductive HttpCall where
  | start (body : StartBody)
  | submit (body : GidBody)
  | abort (body : GidBody)
  | branchAdd (body : BranchBody)
  | branchTry (body : BranchTryBody)
  | branchSucceed (body : BranchStateBody)
  | branchFail (body : BranchStateBody)
  | getTx (gid : String)

/-- The `DefaultBodyLimit` of the extractors. -/
def bodyLimit : Nat := 2097152

/-- The length of a body with the text of a JSON value. -/
def contentLength (body : Value) : Nat := (asBytes (String.ofList (Json.writeValue body))).length

/-- The endpoints that take a body; one that is too long is refused before it is read. -/
def route (path : String) (length : Nat) (body : Value) : Option HttpCall :=
  if bodyLimit < length then none else match path with
  | "/api/start" => (StartBody.deserialize body).map .start
  | "/api/submit" => (GidBody.deserialize body).map .submit
  | "/api/abort" => (GidBody.deserialize body).map .abort
  | "/api/branch/add" => (BranchBody.deserialize body).map .branchAdd
  | "/api/branch/try" => (BranchBody.deserialize body).map .branchTry
  | "/api/branch/succeed" => (BranchStateBody.deserialize body).map .branchSucceed
  | "/api/branch/fail" => (BranchStateBody.deserialize body).map .branchFail
  | _ => none

/-- The longest target of a request. -/
def targetLimit : Nat := 65534

/-- The characters of a path that stand for themselves; any other byte takes three. -/
def unreserved : List UInt8 := asBytes "ABCDEFGHIJKLMNOPQRSTUVWXYZabcdefghijklmnopqrstuvwxyz0123456789-._~"

/-- The length of the target `/api/tx/{gid}`. -/
def targetLength (gid : String) : Nat :=
  (asBytes "/api/tx/").length + ((asBytes gid).map fun b => if b ∈ unreserved then 1 else 3).sum

/-- The endpoint for a transaction: the gid is a segment of the path, and not empty. -/
def routeTx (length : Nat) (gid : String) : Option HttpCall :=
  if targetLimit < length ∨ gid.isEmpty then none else some (.getTx gid)

/-- A request to the endpoints. -/
inductive HttpRequest where
  | post (path : String) (body : Value)
  | getTx (gid : String)

/-- What the router makes of a request, if it does not refuse it. -/
def HttpRequest.call : HttpRequest → Option HttpCall
  | .post path body => route path (contentLength body) body
  | .getTx gid => routeTx (targetLength gid) gid

example (path : String) (body : Value) : route path 2097153 body = none := if_pos (by decide)

/-- The request is not too large, and the gid in its path is not empty. -/
def HttpRequest.Fits : HttpRequest → Prop
  | .post _ body => contentLength body ≤ 2 * 1024 * 1024
  | .getTx gid => targetLength gid ≤ 65534 ∧ gid ≠ ""

/-! ## The gRPC service -/

namespace Grpc

inductive Code where
  | internal
  | notFound
  deriving DecidableEq, Repr

structure Status where
  code : Code
  message : String
  deriving DecidableEq, Repr

structure StartGlobalRequest where
  gid : String
  mode : String
  payload : Bytes

structure SubmitRequest where
  gid : String

structure AbortRequest where
  gid : String

structure AddBranchRequest where
  gid : String
  branchId : String
  action : String

/-- It has the fields of an `AddBranchRequest`. -/
abbrev BranchTryRequest : Type := AddBranchRequest

structure BranchStateRequest where
  gid : String
  branchId : String

structure GetRequest where
  gid : String

structure ListRequest where
  limit : UInt32
  offset : UInt32
  status : String

/-- The responses that are not lists. -/
inductive Response where
  | startGlobal (gid : String)
  | empty
  | get (txnJson : Bytes)
  deriving DecidableEq, Repr

def internal (e : Error) : Status := ⟨.internal, e.message⟩

/-- The response to a result; an error becomes an internal status. -/
def respond {α : Type} (operation : Server α) (response : α → Response) : Handler (Except Status Response) := do
  match ← operation.run with
  | .ok a => return .ok (response a)
  | .error e => return .error (internal e)

def startGlobal (r : StartGlobalRequest) : Handler (Except Status Response) :=
  respond (start r.gid r.mode r.payload) .startGlobal

def submit (exec : ExecConfig) (r : SubmitRequest) : Handler (Except Status Response) :=
  respond (Seata.submit exec r.gid) fun _ => .empty

def abort (r : AbortRequest) : Handler (Except Status Response) :=
  respond (Seata.abort r.gid) fun _ => .empty

def addBranch (r : AddBranchRequest) : Handler (Except Status Response) :=
  respond (Seata.addBranch r.gid r.branchId r.action) fun _ => .empty

/-- What the methods behind the barrier share. -/
def guarded (phase : BarrierPhase) (gid branchId : String) (operation : Server Unit) :
    Handler (Except Status Response) := do
  match ← (Barrier.insert gid branchId phase).run with
  | .ok false => return .ok .empty
  | .error e => return .error (internal e)
  | .ok true => respond operation fun _ => .empty

def branchTry (r : BranchTryRequest) : Handler (Except Status Response) :=
  guarded .tryPhase r.gid r.branchId (Seata.addBranch r.gid r.branchId r.action)

def branchSucceed (r : BranchStateRequest) : Handler (Except Status Response) :=
  guarded .confirm r.gid r.branchId (Seata.branchSucceed r.gid r.branchId)

def branchFail (r : BranchStateRequest) : Handler (Except Status Response) :=
  guarded .cancel r.gid r.branchId (Seata.branchFail r.gid r.branchId)

def get (r : GetRequest) : Handler (Except Status Response) := do
  match ← (load r.gid).run with
  | .error e => return .error (internal e)
  | .ok (some tx) => return .ok (.get (toVec tx))
  | .ok none => return .error ⟨.notFound, "not found"⟩

def ListRequest.filter (r : ListRequest) : Option GlobalStatus :=
  match r.status with
  | "SUBMITTED" => some .submitted
  | "ABORTING" => some .aborting
  | "ABORTED" => some .aborted
  | "COMMITTING" => some .committing
  | "COMMITTED" => some .committed
  | _ => none

/-- The `txn_json` of the response. -/
def list (st : Kv) (r : ListRequest) : Except Status (List Bytes) :=
  match Seata.list st r.limit.toUInt64 r.offset.toUInt64 r.filter with
  | .ok list => .ok (list.map toVec)
  | .error e => .error (internal e)

end Grpc

/-- A call of a method of the gRPC service. -/
inductive GrpcCall where
  | startGlobal (r : Grpc.StartGlobalRequest)
  | submit (r : Grpc.SubmitRequest)
  | abort (r : Grpc.AbortRequest)
  | addBranch (r : Grpc.AddBranchRequest)
  | branchTry (r : Grpc.BranchTryRequest)
  | branchSucceed (r : Grpc.BranchStateRequest)
  | branchFail (r : Grpc.BranchStateRequest)
  | get (r : Grpc.GetRequest)

/-! ## Calls and replies -/

inductive ApiCall where
  | http (c : HttpCall)
  | grpc (c : GrpcCall)
  | jsonrpc (req : JsonRpcReq)

inductive ApiReply where
  | http (r : HttpResponse)
  | read (r : ReadResponse)
  | grpc (r : Except Grpc.Status Grpc.Response)
  | jsonrpc (r : JsonRpcRes)

def HttpCall.handler (exec : ExecConfig) : HttpCall → Handler ApiReply
  | .start body => return .http (← httpStart body)
  | .submit body => return .http (← httpSubmit exec body)
  | .abort body => return .http (← httpAbort body)
  | .branchAdd body => return .http (← Http.branchAdd body)
  | .branchTry body => return .http (← Http.branchTry body)
  | .branchSucceed body => return .http (← Http.branchSucceed body)
  | .branchFail body => return .http (← Http.branchFail body)
  | .getTx gid => return .read (← Http.getTx gid)

def GrpcCall.response (exec : ExecConfig) : GrpcCall → Handler (Except Grpc.Status Grpc.Response)
  | .startGlobal r => Grpc.startGlobal r
  | .submit r => Grpc.submit exec r
  | .abort r => Grpc.abort r
  | .addBranch r => Grpc.addBranch r
  | .branchTry r => Grpc.branchTry r
  | .branchSucceed r => Grpc.branchSucceed r
  | .branchFail r => Grpc.branchFail r
  | .get r => Grpc.get r

/-- The handler of a call. -/
def ApiCall.handler (exec : ExecConfig) : ApiCall → Handler ApiReply
  | .http c => c.handler exec
  | .grpc c => return .grpc (← c.response exec)
  | .jsonrpc req => return .jsonrpc (← jsonrpcDispatch exec req)

/-! ## Operations -/

/-- What a call asks for; a method that does not exist asks for nothing. -/
inductive Operation where
  | request (r : Request)
  | get (gid : String)
  | unknown
  deriving DecidableEq, Repr

/-- The result of an operation. -/
inductive Outcome where
  | done (r : Response)
  | found (tx : Option GlobalTxn)
  deriving DecidableEq, Repr

def Operation.program (exec : ExecConfig) : Operation → Server Outcome
  | .request r => do return .done (← r.handler exec)
  | .get gid => do return .found (← load gid)
  | .unknown => throw ⟨"Method not found"⟩

def HttpCall.operation : HttpCall → Operation
  | .start body => .request (.start (body.gid.getD "") (body.mode.getD "") (body.payload.getD []))
  | .submit body => .request (.submit body.gid)
  | .abort body => .request (.abort body.gid)
  | .branchAdd body => .request (.addBranch body.gid body.branchId body.action)
  | .branchTry body => .request (.branchTry body.gid body.branchId body.action)
  | .branchSucceed body => .request (.branchSucceed body.gid body.branchId)
  | .branchFail body => .request (.branchFail body.gid body.branchId)
  | .getTx gid => .get gid

def GrpcCall.operation : GrpcCall → Operation
  | .startGlobal r => .request (.start r.gid r.mode r.payload)
  | .submit r => .request (.submit r.gid)
  | .abort r => .request (.abort r.gid)
  | .addBranch r => .request (.addBranch r.gid r.branchId r.action)
  | .branchTry r => .request (.branchTry r.gid r.branchId r.action)
  | .branchSucceed r => .request (.branchSucceed r.gid r.branchId)
  | .branchFail r => .request (.branchFail r.gid r.branchId)
  | .get r => .get r.gid

/-- The parameters of a start, as the dispatcher takes them. -/
def JsonRpcReq.start (req : JsonRpcReq) : String × String × Bytes :=
  match req.params with
  | some (.start gid mode payload) => (gid.getD "", mode.getD "", payload.getD [])
  | _ => ("", "", [])

/-- The gid, as the dispatcher takes it. -/
def JsonRpcReq.gid (req : JsonRpcReq) : String :=
  match req.params with
  | some (.gid gid) => gid
  | _ => ""

def JsonRpcReq.operation (req : JsonRpcReq) : Operation :=
  match req.method with
  | "start" => .request (.start req.start.1 req.start.2.1 req.start.2.2)
  | "submit" => .request (.submit req.gid)
  | "abort" => .request (.abort req.gid)
  | _ => .unknown

def ApiCall.operation : ApiCall → Operation
  | .http c => c.operation
  | .grpc c => c.operation
  | .jsonrpc req => req.operation

/-! ## Replies to results -/

def HttpCall.reply (c : HttpCall) : Except Error Outcome → ApiReply
  | .ok (.done (some gid)) => .http ⟨200, .json (gidJson gid)⟩
  | .ok (.done none) => .http Http.ok
  | .ok (.found (some tx)) => .read ⟨200, .record tx⟩
  | .ok (.found none) => .read ⟨404, .text ""⟩
  | .error e => match c with
    | .getTx _ => .read ⟨500, .text e.message⟩
    | _ => .http (Http.internal e)

/-- The response to a result without a value. -/
def Grpc.result : Except Error Unit → Except Grpc.Status Grpc.Response
  | .ok () => .ok .empty
  | .error e => .error (Grpc.internal e)

def Grpc.reply : Except Error Outcome → Except Grpc.Status Grpc.Response
  | .ok (.done (some gid)) => .ok (.startGlobal gid)
  | .ok (.done none) => .ok .empty
  | .ok (.found (some tx)) => .ok (.get (toVec tx))
  | .ok (.found none) => .error ⟨.notFound, "not found"⟩
  | .error e => .error (Grpc.internal e)

def JsonRpcReq.reply (req : JsonRpcReq) : Except Error Outcome → JsonRpcRes
  | .ok (.done (some gid)) => ⟨"2.0", some (gidJson gid), none, req.id⟩
  | .ok _ => ⟨"2.0", some (.object []), none, req.id⟩
  | .error e => ⟨"2.0", none, some (rpcError (if req.operation = .unknown then -32601 else -32000) e.message), req.id⟩

/-- The reply of a call to the result of its operation. -/
def ApiCall.reply : ApiCall → Except Error Outcome → ApiReply
  | .http c, r => c.reply r
  | .grpc _, r => .grpc (Grpc.reply r)
  | .jsonrpc req, r => .jsonrpc (req.reply r)

omit [SerdeJson] in
/-- A handler that changes the result of its operation, and replies. -/
theorem reply_map {α β ρ : Type} (x : Server α) (g : α → β) (f : Except Error β → ρ) :
    ((do return g (← x) : Server β).run >>= fun r => Prog.ret (f r)) =
      x.run >>= fun r => Prog.ret (f (r.map g)) := by
  show (x.run >>= _) >>= _ = _
  rw [bind_assoc]
  refine congrArg (x.run >>= ·) (funext fun r => ?_)
  cases r <;> rfl

omit [SerdeJson] in
/-- A look at the barrier that goes on as the guarded operation does, and replies. -/
theorem run_guarded {ρ : Type} {phase : BarrierPhase} {gid branchId : String} {operation : Server Unit}
    {k : Except Error Bool → Handler ρ} {f : Except Error Unit → ρ} (hskip : k (.ok false) = .ret (f (.ok ())))
    (herror : ∀ e, k (.error e) = .ret (f (.error e)))
    (hrun : k (.ok true) = operation.run >>= fun r => .ret (f r)) :
    (Barrier.insert gid branchId phase).run >>= k =
      (guarded phase gid branchId operation).run >>= fun r => .ret (f r) := by
  show _ = ((Barrier.insert gid branchId phase).run >>= _) >>= _
  rw [bind_assoc]
  refine congrArg ((Barrier.insert gid branchId phase).run >>= ·) (funext fun r => ?_)
  rcases r with e | _ | _
  · exact herror e
  · exact hskip
  · exact hrun

omit [SerdeJson] in
/-- The result of an operation, turned into a reply case by case. -/
theorem bind_congr_ret {α ρ : Type} {x : Server α} {k : Except Error α → Handler ρ} {f : Except Error α → ρ}
    (hok : ∀ a, k (.ok a) = .ret (f (.ok a))) (herror : ∀ e, k (.error e) = .ret (f (.error e))) :
    x.run >>= k = x.run >>= fun r => .ret (f r) := by
  refine congrArg (x.run >>= ·) (funext fun r => ?_)
  cases r with
  | ok a => exact hok a
  | error e => exact herror e

omit [SerdeJson] in
/-- Replying to a reply. -/
theorem bind_ret_ret {α ρ σ : Type} {x : Server α} {f : Except Error α → ρ} {g : ρ → σ} :
    ((x.run >>= fun r => Prog.ret (f r)) >>= fun r => Prog.ret (g r)) = x.run >>= fun r => Prog.ret (g (f r)) := by
  rw [bind_assoc]
  rfl

/-- A request without a result, and the reply to it. -/
theorem run_request {exec : ExecConfig} {r : Request} {x : Server Unit} (hx : r.handler exec = do x; return none)
    {ρ : Type} (f : Except Error Outcome → ρ) :
    (((Operation.request r).program exec).run >>= fun r => Prog.ret (f r)) =
      x.run >>= fun r => Prog.ret (f (r.map fun _ => .done none)) := by
  rw [Operation.program, reply_map, hx, reply_map]
  refine congrArg (x.run >>= ·) (funext fun r => ?_)
  cases r <;> rfl

omit [SerdeJson] in
/-- An endpoint behind the barrier replies to the guarded operation. -/
theorem http_guarded (phase : BarrierPhase) (gid branchId : String) (operation : Server Unit) :
    Http.guarded phase gid branchId operation = replyHttp (guarded phase gid branchId operation) fun _ => .text "" :=
  run_guarded rfl (fun _ => rfl) (bind_congr_ret (fun _ => rfl) fun _ => rfl)

theorem http_branchAdd (body : BranchBody) :
    Http.branchAdd body = replyHttp (addBranch body.gid body.branchId body.action) fun _ => .text "" :=
  bind_congr_ret (fun _ => rfl) fun _ => rfl

omit [SerdeJson] in
/-- A method behind the barrier responds to the guarded operation. -/
theorem grpc_guarded (phase : BarrierPhase) (gid branchId : String) (operation : Server Unit) :
    Grpc.guarded phase gid branchId operation =
      Grpc.respond (guarded phase gid branchId operation) fun _ => .empty := by
  have hresult (x : Server Unit) : Grpc.respond x (fun _ => .empty) = x.run >>= fun r => Prog.ret (Grpc.result r) :=
    bind_congr_ret (fun _ => rfl) fun _ => rfl
  rw [hresult]
  exact run_guarded rfl (fun _ => rfl) (hresult operation)

/-- An endpoint without a result. -/
theorem http_request {exec : ExecConfig} {r : Request} {x : Server Unit} (hx : r.handler exec = do x; return none)
    {c : HttpCall} (hc : ∀ e, c.reply (.error e) = .http (Http.internal e)) :
    (do return .http (← replyHttp x fun _ => .text "") : Handler ApiReply) =
      ((Operation.request r).program exec).run >>= fun r => Prog.ret (c.reply r) := by
  rw [run_request hx]
  show ((x.run >>= fun r => .ret _) >>= fun r => .ret _) = _
  rw [bind_ret_ret]
  exact bind_congr_ret (fun _ => rfl) fun e => congrArg Prog.ret (hc e).symm

theorem http_handler_eq (exec : ExecConfig) (c : HttpCall) :
    c.handler exec = (c.operation.program exec).run >>= fun r => Prog.ret (c.reply r) := by
  cases c with
  | start body =>
    rw [HttpCall.operation, Operation.program, reply_map, Request.handler, reply_map]
    show ((start _ _ _).run >>= fun r => .ret _) >>= (fun r => .ret _) = _
    rw [bind_ret_ret]
    exact bind_congr_ret (fun _ => rfl) fun _ => rfl
  | submit body => exact http_request (x := submit exec body.gid) rfl fun _ => rfl
  | abort body => exact http_request (x := abort body.gid) rfl fun _ => rfl
  | branchAdd body =>
    rw [HttpCall.handler, http_branchAdd]
    exact http_request rfl fun _ => rfl
  | branchTry body =>
    rw [HttpCall.handler, Http.branchTry, http_guarded]
    exact http_request rfl fun _ => rfl
  | branchSucceed body =>
    rw [HttpCall.handler, Http.branchSucceed, http_guarded]
    exact http_request rfl fun _ => rfl
  | branchFail body =>
    rw [HttpCall.handler, Http.branchFail, http_guarded]
    exact http_request rfl fun _ => rfl
  | getTx gid =>
    rw [HttpCall.operation, Operation.program, reply_map]
    show ((load gid).run >>= _) >>= (fun r => .ret _) = _
    rw [bind_assoc]
    refine congrArg ((load gid).run >>= ·) (funext fun r => ?_)
    rcases r with e | _ | tx <;> rfl

/-- A method without a result. -/
theorem grpc_request {exec : ExecConfig} {r : Request} {x : Server Unit} (hx : r.handler exec = do x; return none) :
    Grpc.respond x (fun _ => .empty) =
      ((Operation.request r).program exec).run >>= fun r => Prog.ret (Grpc.reply r) := by
  rw [run_request hx]
  exact bind_congr_ret (fun _ => rfl) fun _ => rfl

theorem grpc_handler_eq (exec : ExecConfig) (c : GrpcCall) :
    c.response exec = (c.operation.program exec).run >>= fun r => Prog.ret (Grpc.reply r) := by
  cases c with
  | startGlobal r =>
    rw [GrpcCall.operation, Operation.program, reply_map, Request.handler, reply_map]
    exact bind_congr_ret (fun _ => rfl) fun _ => rfl
  | submit r => exact grpc_request rfl
  | abort r => exact grpc_request rfl
  | addBranch r => exact grpc_request rfl
  | branchTry r => exact (grpc_guarded _ _ _ _).trans (grpc_request rfl)
  | branchSucceed r => exact (grpc_guarded _ _ _ _).trans (grpc_request rfl)
  | branchFail r => exact (grpc_guarded _ _ _ _).trans (grpc_request rfl)
  | get r =>
    rw [GrpcCall.operation, Operation.program, reply_map]
    refine congrArg ((load r.gid).run >>= ·) (funext fun r => ?_)
    rcases r with e | _ | tx <;> rfl

omit [SerdeJson] in
theorem rpc_reply_error {req : JsonRpcReq} {r : Request} (hreq : req.operation = .request r) (e : Error) :
    req.reply (.error e) = ⟨"2.0", none, some (rpcError (-32000) e.message), req.id⟩ := by
  unfold JsonRpcReq.reply
  rw [hreq]
  rfl

/-- A method of JSON-RPC without a result. -/
theorem rpc_request {exec : ExecConfig} {r : Request} {x : Server Unit} (hx : r.handler exec = do x; return none)
    {req : JsonRpcReq} (hreq : req.operation = .request r) :
    (replyRpc req.id x fun _ => .object []) =
      (req.operation.program exec).run >>= fun r => Prog.ret (req.reply r) := by
  rw [hreq, run_request hx]
  exact bind_congr_ret (fun _ => rfl) fun e => congrArg Prog.ret (rpc_reply_error hreq e).symm

theorem jsonrpc_handler_eq (exec : ExecConfig) (req : JsonRpcReq) :
    jsonrpcDispatch exec req = (req.operation.program exec).run >>= fun r => Prog.ret (req.reply r) := by
  rw [jsonrpcDispatch]
  split
  · rename_i hm
    have hreq : req.operation = .request (.start req.start.1 req.start.2.1 req.start.2.2) := by
      simp [JsonRpcReq.operation, hm]
    rw [hreq, Operation.program, reply_map, Request.handler, reply_map]
    obtain ⟨_, _, params, id⟩ := req
    refine bind_congr_ret (fun _ => rfl) fun e => congrArg Prog.ret ?_
    exact (rpc_reply_error hreq e).symm
  · rename_i hm
    exact rpc_request rfl (by simp [JsonRpcReq.operation, hm, JsonRpcReq.gid]; rfl)
  · rename_i hm
    exact rpc_request rfl (by simp [JsonRpcReq.operation, hm, JsonRpcReq.gid]; rfl)
  · rename_i hstart hsubmit habort
    have hreq : req.operation = .unknown := by
      rw [JsonRpcReq.operation]
      split <;> simp_all
    rw [hreq, Operation.program]
    show _ = Prog.ret (req.reply (.error ⟨"Method not found"⟩))
    unfold JsonRpcReq.reply
    rw [hreq]
    rfl

/-- **A handler performs its operation and replies**, whichever front end it belongs to. -/
theorem handler_eq (exec : ExecConfig) (c : ApiCall) :
    c.handler exec = (c.operation.program exec).run >>= fun r => Prog.ret (c.reply r) := by
  cases c with
  | http c => exact http_handler_eq exec c
  | grpc c =>
    show (c.response exec >>= fun r => .ret _) = _
    rw [grpc_handler_eq, bind_ret_ret]
    rfl
  | jsonrpc req =>
    show (jsonrpcDispatch exec req >>= fun r => .ret _) = _
    rw [jsonrpc_handler_eq, bind_ret_ret]
    rfl

/-! ## What a reply means -/

/-- What a client learns from a reply. -/
inductive Meaning where
  | done (gid : Option String)
  | record (txnJson : Bytes)
  | missing
  | failed (message : String)
  deriving DecidableEq, Repr

def HttpResponse.meaning (r : HttpResponse) : Meaning :=
  if r.ok then .done r.gid
  else match r.body with
    | .text s => .failed s
    | .json _ => .failed ""

def ReadResponse.meaning (r : ReadResponse) : Meaning :=
  match r.body with
  | .record tx => .record (toVec tx)
  | .records _ => .done none
  | .text s => if r.status = 404 then .missing else .failed s

def Grpc.meaning : Except Grpc.Status Grpc.Response → Meaning
  | .ok (.startGlobal gid) => .done (some gid)
  | .ok .empty => .done none
  | .ok (.get txnJson) => .record txnJson
  | .error ⟨.notFound, _⟩ => .missing
  | .error ⟨.internal, message⟩ => .failed message

/-- The message in an error object. -/
def messageOf : Value → String
  | .object [_, ("message", .string message)] => message
  | _ => ""

def JsonRpcRes.meaning (r : JsonRpcRes) : Meaning :=
  match r.error with
  | some e => .failed (messageOf e)
  | none => .done r.gid

def ApiReply.meaning : ApiReply → Meaning
  | .http r => r.meaning
  | .read r => r.meaning
  | .grpc r => Grpc.meaning r
  | .jsonrpc r => r.meaning

/-- What the result of an operation means. -/
def resultMeaning : Except Error Outcome → Meaning
  | .ok (.done gid) => .done gid
  | .ok (.found (some tx)) => .record (toVec tx)
  | .ok (.found none) => .missing
  | .error e => .failed e.message

/-- The result is one of the operation: only a get finds something. -/
def Operation.Yields (o : Operation) : Except Error Outcome → Prop
  | .ok (.found _) => ∃ gid, o = .get gid
  | _ => True

/-- **The reply means the result**, whichever front end it comes from. -/
theorem reply_meaning (c : ApiCall) {r : Except Error Outcome} (h : c.operation.Yields r) :
    (c.reply r).meaning = resultMeaning r := by
  cases c with
  | http c =>
    rcases r with e | (_ | gid) | (_ | tx)
    · cases c <;> rfl
    all_goals rfl
  | grpc c => rcases r with e | (_ | gid) | (_ | tx) <;> rfl
  | jsonrpc req =>
    rcases r with e | (_ | gid) | found
    · rfl
    · rfl
    · rfl
    · obtain ⟨gid, hget⟩ := h
      have hne : req.operation ≠ .get gid := by
        rw [JsonRpcReq.operation]
        split <;> simp
      exact absurd hget hne

theorem run_get (exec : ExecConfig) (gid : String) : ((Operation.get gid).program exec).run =
    (load gid).run >>= fun a => Prog.ret (a.map Outcome.found) := by
  refine congrArg ((load gid).run >>= ·) (funext fun a => ?_)
  cases a <;> rfl

theorem program_yields (exec : ExecConfig) (o : Operation) : (o.program exec).run.Returns o.Yields := by
  cases o with
  | request r =>
    have h : ((Operation.request r).program exec).run =
        (r.handler exec).run >>= fun a => Prog.ret (a.map Outcome.done) := by
      refine congrArg ((r.handler exec).run >>= ·) (funext fun a => ?_)
      cases a <;> rfl
    rw [h]
    refine returns_map (fun a => ?_) _
    cases a <;> trivial
  | get gid =>
    rw [run_get]
    refine returns_map (fun a => ?_) _
    cases a
    · trivial
    · exact ⟨gid, rfl⟩
  | unknown => exact trivial

/-! ## The gRPC service over REST -/

/-- Bytes as a JSON array. -/
def bytesJson (bytes : Bytes) : Value := .array (bytes.map fun b => .int b.toNat)

/-- The request to an endpoint that asks for the same as a method of the service. -/
def GrpcCall.request : GrpcCall → HttpRequest
  | .startGlobal r => .post "/api/start"
    (.object [("gid", .string r.gid), ("mode", .string r.mode), ("payload", bytesJson r.payload)])
  | .submit r => .post "/api/submit" (.object [("gid", .string r.gid)])
  | .abort r => .post "/api/abort" (.object [("gid", .string r.gid)])
  | .addBranch r => .post "/api/branch/add"
    (.object [("gid", .string r.gid), ("branch_id", .string r.branchId), ("action", .string r.action)])
  | .branchTry r => .post "/api/branch/try"
    (.object [("gid", .string r.gid), ("branch_id", .string r.branchId), ("action", .string r.action)])
  | .branchSucceed r => .post "/api/branch/succeed"
    (.object [("gid", .string r.gid), ("branch_id", .string r.branchId)])
  | .branchFail r => .post "/api/branch/fail" (.object [("gid", .string r.gid), ("branch_id", .string r.branchId)])
  | .get r => .getTx r.gid

omit [SerdeJson] in
theorem u8_toNat (b : UInt8) : u8 (.int b.toNat) = some b := by
  have hb : (0 : Int) ≤ b.toNat ∧ (b.toNat : Int) < 256 := by
    have := b.toNat_lt
    omega
  rw [u8, if_pos hb, Int.toNat_natCast, UInt8.ofNat_toNat]

omit [SerdeJson] in
/-- A payload arrives as it was sent. -/
theorem vec_bytesJson (bytes : Bytes) : vec u8 (bytesJson bytes) = some bytes := by
  rw [bytesJson, vec]
  induction bytes with
  | nil => rfl
  | cons b bytes ih => rw [List.map_cons, List.mapM_cons, u8_toNat, ih]; rfl

omit [SerdeJson] in
/-- **Every request of the service that is not too large is accepted by an endpoint**, and asks for the same there. -/
theorem exists_sent {c : GrpcCall} (hc : c.request.Fits) :
    ∃ h, c.request.call = some h ∧ h.operation = c.operation := by
  have hroute {path : String} {body : Value} (hbody : contentLength body ≤ 2 * 1024 * 1024) :
      HttpRequest.call (.post path body) = route path 0 body := by
    have hlimit : ¬ bodyLimit < contentLength body := Nat.not_lt.mpr hbody
    simp only [HttpRequest.call, route, hlimit, Nat.not_lt_zero, ↓reduceIte]
  cases c with
  | startGlobal r =>
    refine ⟨.start ⟨some r.gid, some r.mode, some r.payload⟩, (hroute hc).trans ?_, rfl⟩
    have hp : option (vec u8) (bytesJson r.payload) = some (some r.payload) := by
      show (vec u8 (bytesJson r.payload)).map some = _
      rw [vec_bytesJson, Option.map_some]
    have hs (s : String) : option string (.string s) = some (some s) := rfl
    show (StartBody.ofFields _).map HttpCall.start = _
    simp [StartBody.ofFields, Serde.optional, field, hp, hs]
  | submit r => exact ⟨.submit ⟨r.gid⟩, (hroute hc).trans rfl, rfl⟩
  | abort r => exact ⟨.abort ⟨r.gid⟩, (hroute hc).trans rfl, rfl⟩
  | addBranch r => exact ⟨.branchAdd ⟨r.gid, r.branchId, r.action⟩, (hroute hc).trans rfl, rfl⟩
  | branchTry r => exact ⟨.branchTry ⟨r.gid, r.branchId, r.action⟩, (hroute hc).trans rfl, rfl⟩
  | branchSucceed r => exact ⟨.branchSucceed ⟨r.gid, r.branchId⟩, (hroute hc).trans rfl, rfl⟩
  | branchFail r => exact ⟨.branchFail ⟨r.gid, r.branchId⟩, (hroute hc).trans rfl, rfl⟩
  | get r =>
    obtain ⟨hlength, hgid⟩ := hc
    refine ⟨.getTx r.gid, if_neg ?_, rfl⟩
    rw [String.isEmpty_iff]
    rintro (hlong | hempty)
    · exact absurd hlong (Nat.not_lt.mpr hlength)
    · exact hgid hempty

end Handlers

end Seata
