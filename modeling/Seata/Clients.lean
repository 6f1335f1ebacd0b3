import Seata.Api
import Seata.Async.Cutoff

/-!
# Calls in flight

Calls of any front end that run together. A pool of them is the pool of their operations, with replies for the results
(`arriving_eq`). The http server drops a handler that takes too long, between any two of its steps, and answers 408; the
branch tasks that it has spawned go on. The gRPC service has no such layer.

- `timed_refines`: a run with timeouts is one without, as far as the store, the participants and the other clients can
  tell;
- `front_ends_interchangeable`: **calls that ask for the same have the same runs**, and those that do not time out mean
  the same by their replies.
-/

namespace Seata

open Async Serde

section Clients

variable [SerdeJson]

/-! ## Calls in flight -/

/-- Calls that arrive together, each with what it will meet; none of them is cut off. -/
def arriving (exec : ExecConfig) (st : Kv) (cs : List (ApiCall × World)) : Pool Bytes Bytes BranchCall Error ApiReply :=
  .init st (cs.map fun c => (c.1.handler exec, c.2))

/-- The same for their operations. -/
def operating (exec : ExecConfig) (st : Kv) (os : List (Operation × World)) : Handlers Outcome :=
  .init st (os.map fun o => ((o.1.program exec).run, o.2))

/-- What the calls ask for. -/
def operations (cs : List (ApiCall × World)) : List (Operation × World) := cs.map fun c => (c.1.operation, c.2)

theorem todos_operating (exec : ExecConfig) (st : Kv) (os : List (Operation × World)) :
    (operating exec st os).todos = os.map fun o => script (o.1.program exec) (.init o.2) := by
  simp only [operating, Pool.todos, Pool.init, List.map_map]
  rfl

/-- The script of the `i`-th call. -/
theorem getElem?_operating {exec : ExecConfig} {st : Kv} {cs : List (ApiCall × World)} {i : Nat} {x : Action Outcome} :
    (operating exec st (operations cs)).todos[i]? = some x ↔
      ∃ c, cs[i]? = some c ∧ script (c.1.operation.program exec) (.init c.2) = x := by
  simp only [todos_operating, operations, List.map_map, List.getElem?_map, Option.map_eq_some_iff, Function.comp]

omit [SerdeJson] in
/-- A handler that has ended, and its script. -/
theorem getElem?_todos {α : Type} {s : Handlers α} {i : Nat}
    {p : Proc Bytes Bytes BranchCall Error (Except Error α)} {r : Except Error α} (hp : s.procs[i]? = some p)
    (hr : p.prog = .ret r) : s.todos[i]? = some (.done (r, p.loc.core)) := by
  rw [Pool.todos, List.getElem?_map, hp, Option.map_some, Proc.todo, hr, resolve]

/-- The reply of the `i`-th call; there is none behind the last. -/
def replyOf (cs : List (ApiCall × World)) (i : Nat) (r : Except Error Outcome) : ApiReply :=
  match cs[i]? with
  | some c => c.1.reply r
  | none => .http Http.ok

/-- **Calls in flight** are their operations in flight, and reply to the results. -/
theorem arriving_eq (exec : ExecConfig) (st : Kv) (cs : List (ApiCall × World)) :
    arriving exec st cs = (operating exec st (operations cs)).replying (replyOf cs) := by
  have hprocs : ((cs.map fun c => (c.1.handler exec, c.2)).map fun p =>
      (⟨p.1, .init p.2⟩ : Proc Bytes Bytes BranchCall Error ApiReply)) =
      (((operations cs).map fun o => ((o.1.program exec).run, o.2)).map fun p =>
        (⟨p.1, .init p.2⟩ : Proc Bytes Bytes BranchCall Error (Except Error Outcome))).mapIdx fun i p =>
          p.replying (replyOf cs i) := by
    refine List.ext_getElem? fun i => ?_
    simp only [operations, List.getElem?_mapIdx, List.getElem?_map, Option.map_map]
    cases hc : cs[i]? with
    | none => rfl
    | some c =>
      simp only [Option.map_some, Function.comp_apply, Proc.replying, replyOf, hc, handler_eq]
  exact congrArg (Pool.mk st) hprocs

/-- Handler `i` has given a reply with this meaning. -/
def Replied (s : Pool Bytes Bytes BranchCall Error ApiReply) (i : Nat) (m : Meaning) : Prop :=
  ∃ r, (∃ p, s.procs[i]? = some p ∧ p.prog = .ret r) ∧ r.meaning = m

/-- The reply of handler `i`, if it has given one. -/
def replyAt (s : Pool Bytes Bytes BranchCall Error ApiReply) (i : Nat) : Option ApiReply :=
  (s.procs[i]?).bind fun p => match p.prog with
    | .ret r => some r
    | _ => none

omit [SerdeJson] in
theorem replyAt_eq_some {s : Pool Bytes Bytes BranchCall Error ApiReply} {i : Nat} {r : ApiReply} :
    replyAt s i = some r ↔ ∃ p, s.procs[i]? = some p ∧ p.prog = .ret r := by
  rw [replyAt, Option.bind_eq_some_iff]
  refine exists_congr fun p => and_congr_right fun _ => ?_
  constructor
  · intro hr
    split at hr
    · rwa [← Option.some.inj hr]
    · cases hr
  · intro hr
    rw [hr]

theorem replied_iff_replyAt {s : Pool Bytes Bytes BranchCall Error ApiReply} {i : Nat} {m : Meaning} :
    Replied s i m ↔ ∃ r, replyAt s i = some r ∧ r.meaning = m := by
  simp only [replyAt_eq_some, Replied]

/-- What the reply of handler `i` means, if it has given one. -/
def meaningOf (s : Pool Bytes Bytes BranchCall Error ApiReply) (i : Nat) : Option Meaning :=
  (s.procs[i]?).bind fun p => match p.prog with
    | .ret r => some r.meaning
    | _ => none

theorem meaningOf_eq_some {s : Pool Bytes Bytes BranchCall Error ApiReply} {i : Nat} {m : Meaning} :
    meaningOf s i = some m ↔ Replied s i m := by
  rw [meaningOf, Option.bind_eq_some_iff]
  constructor
  · rintro ⟨p, hp, hm⟩
    split at hm
    · exact ⟨_, ⟨p, hp, ‹_›⟩, Option.some.inj hm⟩
    · cases hm
  · rintro ⟨r, ⟨p, hp, hr⟩, rfl⟩
    exact ⟨p, hp, by rw [hr]⟩

instance (s : Pool Bytes Bytes BranchCall Error ApiReply) (i : Nat) (m : Meaning) : Decidable (Replied s i m) :=
  decidable_of_iff _ meaningOf_eq_some

/-- A handler has replied what the result of its operation means. -/
theorem replied_iff {exec : ExecConfig} {st : Kv} {cs : List (ApiCall × World)} {tr : Log} {s : Handlers Outcome}
    (h : Run (operating exec st (operations cs)) tr s) {i : Nat} {m : Meaning} :
    Replied (s.replying (replyOf cs)) i m ↔
      ∃ p r, s.procs[i]? = some p ∧ p.prog = .ret r ∧ resultMeaning r = m := by
  -- the results are those of the operations
  have hresult {p : Proc Bytes Bytes BranchCall Error (Except Error Outcome)} {r : Except Error Outcome}
      (hp : s.procs[i]? = some p) (hr : p.prog = .ret r) : (replyOf cs i r).meaning = resultMeaning r := by
    have hlen : s.procs.length = cs.length := by
      have hlen := h.interleaving.length
      simpa [Pool.todos, operating, operations, Pool.init] using hlen
    have hi : i < cs.length := hlen ▸ (List.getElem?_eq_some_iff.mp hp).1
    have hc : cs[i]? = some cs[i] := List.getElem?_eq_getElem hi
    have h₀ : (operating exec st (operations cs)).procs[i]? =
        some ⟨(cs[i].1.operation.program exec).run, .init cs[i].2⟩ := by
      simp [operating, operations, Pool.init, hc]
    obtain ⟨p', hp', hy⟩ := h.returns h₀ (program_yields exec cs[i].1.operation)
    obtain rfl := Option.some.inj (hp.symm.trans hp')
    rw [hr] at hy
    simp only [replyOf, hc]
    exact reply_meaning _ hy
  constructor
  · rintro ⟨b, hb, rfl⟩
    obtain ⟨p, r, hp, hr, rfl⟩ := ret_replying_iff.mp hb
    exact ⟨p, r, hp, hr, (hresult hp hr).symm⟩
  · rintro ⟨p, r, hp, hr, rfl⟩
    exact ⟨_, ret_replying_iff.mpr ⟨p, r, hp, hr, rfl⟩, hresult hp hr⟩

/-! ## Timeouts -/

/-- The timeout layer is around the http routes. -/
def ApiCall.timed : ApiCall → Bool
  | .http _ => true
  | .jsonrpc _ => true
  | .grpc _ => false

/-- What the timeout layer answers. -/
def requestTimeout : ApiReply := .http ⟨408, .text ""⟩

/-- Calls in flight that may time out. -/
abbrev TimedRun (exec : ExecConfig) (st : Kv) (cs : List (ApiCall × World)) :
    Log → Pool Bytes Bytes BranchCall Error ApiReply → Prop :=
  Timed (fun i => ∃ c, cs[i]? = some c ∧ c.1.timed) requestTimeout (arriving exec st cs)

/-- A run of given turns with a given property, in which call `i` times out. -/
theorem timedRun_of_exec (exec : ExecConfig) (st : Kv) (cs : List (ApiCall × World)) (i : Nat) {c : ApiCall × World}
    (hc : cs[i]? = some c) (htimed : c.1.timed) (ts ts' : List Turn)
    (q : Log × Pool Bytes Bytes BranchCall Error ApiReply → Bool)
    (h : ((arriving exec st cs).execCut requestTimeout ts i ts').any q = true) :
    ∃ tr b, TimedRun exec st cs tr b ∧ q (tr, b) = true :=
  timed_of_execCut ⟨c, hc, htimed⟩ ts ts' q h

/-- **A run with timeouts is one without**, in which the calls that timed out are late: the store and the trace are the
same, and so is every reply but that of a timeout. -/
theorem timed_refines {exec : ExecConfig} {st : Kv} {cs : List (ApiCall × World)} {tr : Log}
    {b : Pool Bytes Bytes BranchCall Error ApiReply} (h : TimedRun exec st cs tr b) :
    ∃ s, Run (arriving exec st cs) tr s ∧ s.store = b.store ∧ ∀ i, replyAt s i = replyAt b i ∨
      replyAt b i = some requestTimeout ∧ ∃ c, cs[i]? = some c ∧ c.1.timed := by
  obtain ⟨s, hrun, halong⟩ := h.run
  refine ⟨s, hrun, halong.store, fun i => ?_⟩
  cases hq : b.procs[i]? with
  | none =>
    have hp : s.procs[i]? = none := by
      rw [List.getElem?_eq_none_iff] at hq ⊢
      exact halong.length ▸ hq
    exact .inl (by rw [replyAt, replyAt, hp, hq])
  | some q =>
    obtain ⟨p, hp, rfl | ⟨hmay, -, rfl⟩⟩ := halong.get hq
    · exact .inl (by rw [replyAt, replyAt, hp, hq])
    · exact .inr ⟨by rw [replyAt, hq]; rfl, hmay⟩

/-! ## Interchangeable front ends -/

/-- Whatever the calls `cs` do, some of them perhaps timing out, the calls `cs'` can do, turn by turn and with the same
stores; and the replies mean the same, but for those of timeouts. -/
def Alike (exec : ExecConfig) (st : Kv) (cs cs' : List (ApiCall × World)) : Prop :=
  ∀ tr b, TimedRun exec st cs tr b → ∃ s, Run (arriving exec st cs') tr s ∧ s.store = b.store ∧
    ∀ i, replyAt b i ≠ some requestTimeout → ∀ m, Replied b i m ↔ Replied s i m

/-- Calls that ask for the same are alike. -/
theorem alike_of_operations (exec : ExecConfig) (st : Kv) {cs cs' : List (ApiCall × World)}
    (hops : operations cs = operations cs') : Alike exec st cs cs' := by
  intro tr b h
  obtain ⟨s, hs, hstore, hreplies⟩ := timed_refines h
  rw [arriving_eq] at hs
  obtain ⟨r, hr, rfl⟩ := run_replying_iff.mp hs
  refine ⟨r.replying (replyOf cs'), ?_, hstore, fun i hi m => ?_⟩
  · rw [arriving_eq, ← hops]
    exact hr.replying _
  · have hreply := (hreplies i).resolve_right fun hlate => hi hlate.1
    rw [replied_iff_replyAt, ← hreply, ← replied_iff_replyAt, replied_iff hr, replied_iff (hops ▸ hr)]

/-- **The front ends are interchangeable**: calls that ask for the same, of whichever front ends, have the same runs,
and those that do not time out mean the same by their replies; and for the requests of the gRPC service there are
requests to the endpoints, all of them accepted, that ask for the same, if none of these is too large and a get has a
gid. -/
theorem front_ends_interchangeable (exec : ExecConfig) (st : Kv) :
    (∀ cs cs', operations cs = operations cs' → Alike exec st cs cs') ∧
      ∀ cs : List (GrpcCall × World), (∀ c ∈ cs, c.1.request.Fits) → ∃ hs : List (HttpCall × World),
        hs.map (fun h => (some h.1, h.2)) = cs.map (fun c => (c.1.request.call, c.2)) ∧
        Alike exec st (cs.map fun c => (.grpc c.1, c.2)) (hs.map fun h => (.http h.1, h.2)) ∧
        Alike exec st (hs.map fun h => (.http h.1, h.2)) (cs.map fun c => (.grpc c.1, c.2)) := by
  refine ⟨fun cs cs' => alike_of_operations exec st, fun cs hcs => ?_⟩
  have hall (c : GrpcCall) : ∃ h : HttpCall, c.request.Fits → c.request.call = some h ∧ h.operation = c.operation := by
    by_cases hc : c.request.Fits
    · obtain ⟨h, hh⟩ := exists_sent hc
      exact ⟨h, fun _ => hh⟩
    · exact ⟨.getTx "", fun hfits => absurd hfits hc⟩
  choose sent hsent using hall
  have hops : operations (cs.map fun c => (ApiCall.grpc c.1, c.2)) =
      operations ((cs.map fun c => (sent c.1, c.2)).map fun h => (ApiCall.http h.1, h.2)) := by
    simp only [operations, List.map_map]
    exact List.map_congr_left fun c hc => by
      show (c.1.operation, c.2) = ((sent c.1).operation, c.2)
      rw [(hsent c.1 (hcs c hc)).2]
  refine ⟨cs.map fun c => (sent c.1, c.2), ?_, alike_of_operations exec st hops,
    alike_of_operations exec st hops.symm⟩
  rw [List.map_map]
  exact List.map_congr_left fun c hc => by
    show (some (sent c.1), c.2) = _
    rw [(hsent c.1 (hcs c hc)).1]

end Clients

section Example

attribute [local instance] Json.serdeJson

/-- A start and a branch, a submit, and a get, by way of all front ends. -/
def mixedCalls : List (ApiCall × World) :=
  [(.http (.start ⟨some "g", none, some [1, 2]⟩), .calm 1), (.grpc (.addBranch ⟨"g", "b", "http://b"⟩), .calm 2),
    (.jsonrpc ⟨"2.0", "submit", some (.gid "g"), .null⟩, .calm 3), (.grpc (.get ⟨"g"⟩), .calm 4)]

/-- A start, a submit and a get of the gRPC service have their endpoints. -/
theorem front_ends_interchangeable_three :
    let cs : List (GrpcCall × World) := [(.startGlobal ⟨"g", "", [1]⟩, .calm 1), (.submit ⟨"g"⟩, .calm 2),
      (.get ⟨"g"⟩, .calm 3)]
    ∃ hs : List (HttpCall × World), hs.map (fun h => (some h.1, h.2)) = cs.map (fun c => (c.1.request.call, c.2)) ∧
      Alike .default ∅ (cs.map fun c => (.grpc c.1, c.2)) (hs.map fun h => (.http h.1, h.2)) := by
  intro cs
  have hfits : ∀ c ∈ cs, c.1.request.Fits := by
    simp only [cs, List.forall_mem_cons, HttpRequest.Fits, GrpcCall.request]
    exact ⟨by decide +kernel, by decide +kernel, ⟨by decide +kernel, by decide⟩, nofun⟩
  obtain ⟨hs, hsent, halike, -⟩ := (front_ends_interchangeable .default ∅).2 cs hfits
  exact ⟨hs, hsent, halike⟩

end Example

end Seata
