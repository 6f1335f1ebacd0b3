import Seata.Ledger
import Seata.Browsing

/-!
# The service

What clients see of the server as a whole: they call the endpoints, the gRPC service and JSON-RPC, and list
transactions, one call after the other. The ledger says what the replies are, without keys, encodings and scans.

- `Ledger.Answers`: the reply to a call, by the ledger;
- `service_refines`: **every reply is the one of the ledger**, to any calls in any order.
-/

namespace Seata

open Async Serde

/-! ## By the ledger -/

/-- A call of the service. -/
inductive ServiceCall where
  | call (c : ApiCall)
  | httpList (q : Query)
  | grpcList (r : Grpc.ListRequest)

inductive ServiceReply where
  | reply (r : ApiReply)
  | httpPage (r : ReadResponse)
  | grpcPage (r : Except Grpc.Status (List Bytes))

namespace Ledger

/-- The result of an operation, and what it makes of the ledger. -/
def perform (l : Ledger) : Operation × World → Except Error Outcome × Ledger
  | (.request r, w) => (.ok (.done (r.answer w)), l.serve (r, w))
  | (.get g, _) => (.ok (.found (l.records g)), l)
  | (.unknown, _) => (.error ⟨"Method not found"⟩, l)

/-- The page of the records in the order of their gids, of which those are left that pass the filter. -/
def Lists (l : Ledger) (limit offset : Nat) (status : Option GlobalStatus) (page : List GlobalTxn) : Prop :=
  ∃ all : List GlobalTxn, (∀ tx, tx ∈ all ↔ l.records tx.gid = some tx) ∧
    (all.Pairwise fun a b => asBytes a.gid < asBytes b.gid) ∧ page = (window all offset limit).filter (Passes status)

variable [SerdeJson]

/-- **The reply to a call**, and what the call makes of the ledger. -/
def Answers (l : Ledger) (c : ServiceCall × World) (reply : ServiceReply) (l' : Ledger) : Prop :=
  match c.1 with
  | .call a => reply = .reply (a.reply (l.perform (a.operation, c.2)).1) ∧ l' = (l.perform (a.operation, c.2)).2
  | .httpList q => l' = l ∧ ∃ page, reply = .httpPage ⟨200, .records page⟩ ∧
    -- the sum of offset and limit is one of machine words
    if q.offset.toNat + q.limit.toNat < 2 ^ 64 then l.Lists q.limit.toNat q.offset.toNat q.status page else page = []
  | .grpcList r => l' = l ∧ ∃ page, reply = .grpcPage (.ok (page.map toVec)) ∧
    l.Lists r.limit.toNat r.offset.toNat r.filter page

/-- The replies to calls, one after the other. -/
def AnswersAll (l : Ledger) : List (ServiceCall × World) → List ServiceReply → Prop
  | [], replies => replies = []
  | c :: cs, replies => ∃ reply l' rest, replies = reply :: rest ∧ l.Answers c reply l' ∧ l'.AnswersAll cs rest

end Ledger

/-! ## By the server -/

section Service

variable [SerdeJson]

/-- A complete call: its reply, and the store that it leaves. -/
def ServiceCall.serve (exec : ExecConfig) (st : Kv) (c : ServiceCall × World) : ServiceReply × Kv :=
  match c.1 with
  | .call a =>
    let x := (resolve (a.handler exec) (.init c.2)).exec st
    (.reply x.2.1.1, x.2.2)
  | .httpList q => (.httpPage (Http.listTx st q), st)
  | .grpcList r => (.grpcPage (Grpc.list st r), st)

/-- The replies to complete calls, one after the other. -/
def serveCalls (exec : ExecConfig) (st : Kv) : List (ServiceCall × World) → List ServiceReply
  | [] => []
  | c :: cs => (ServiceCall.serve exec st c).1 :: serveCalls exec (ServiceCall.serve exec st c).2 cs

/-- The store has the records and the marks of the ledger, and a scan for transactions finds nothing else. -/
structure Conforms (st : Kv) (l : Ledger) : Prop where
  refines : Refines st l
  scanned : ∀ k, (asBytes "gid:").isPrefixOf k = true → (st.lookup k).isSome → ∃ g, k = txnKey g

theorem conforms_empty : Conforms ∅ .empty := ⟨refines_empty, fun k _ hk => by simp at hk⟩

variable {st : Kv} {l : Ledger}

/-! ## Lists -/

/-- What a scan finds are the records of the ledger. -/
theorem Conforms.scan (h : Conforms st l) : ∃ all : List GlobalTxn,
    (∀ tx, tx ∈ all ↔ l.records tx.gid = some tx) ∧ (all.Pairwise fun a b => asBytes a.gid < asBytes b.gid) ∧
      ∀ n, scanPrefix st (asBytes "gid:") n = (all.take n).map toVec := by
  have hkeys : ∀ k ∈ (sortedKeys st).filter fun k => (asBytes "gid:").isPrefixOf k,
      ∃ tx : GlobalTxn, k = txnKey tx.gid ∧ record st tx.gid = some tx := by
    intro k hk
    obtain ⟨hthere, hk⟩ := List.mem_filter.mp hk
    have hthere := mem_sortedKeys.mp hthere
    obtain ⟨g, rfl⟩ := h.scanned k hk hthere
    rw [h.refines.sound.lookup, Option.isSome_map] at hthere
    obtain ⟨tx, htx⟩ := Option.isSome_iff_exists.mp hthere
    obtain rfl := h.refines.sound.gid htx
    exact ⟨tx, rfl, htx⟩
  obtain ⟨all, hall, hrecord⟩ := exists_map_eq hkeys
  refine ⟨all, fun tx => ?_, ?_, fun n => ?_⟩
  · rw [← h.refines.records]
    refine ⟨hrecord tx, fun htx => ?_⟩
    have hmem : txnKey tx.gid ∈ all.map fun tx => txnKey tx.gid := by
      rw [← hall, List.mem_filter, mem_sortedKeys, h.refines.sound.lookup, htx]
      exact ⟨rfl, isPrefixOf_txnKey tx.gid⟩
    obtain ⟨tx', htx', hkey⟩ := List.mem_map.mp hmem
    have hrecord' := hrecord tx' htx'
    rw [txnKey_injective hkey, htx] at hrecord'
    rwa [Option.some.inj hrecord']
  · have hsorted := (pairwise_sortedKeys st).filter fun k => (asBytes "gid:").isPrefixOf k
    rw [hall, List.pairwise_map] at hsorted
    exact hsorted.imp lt_of_txnKey_lt
  · rw [scanPrefix, Async.scan, hall, ← List.map_take, List.filterMap_map, ← List.filterMap_eq_map]
    refine List.filterMap_congr fun tx htx => ?_
    show st.lookup (txnKey tx.gid) = some (toVec tx)
    rw [h.refines.sound.lookup, hrecord tx (List.mem_of_mem_take htx), Option.map_some]

/-- **A list is a page of the ledger.** -/
theorem Conforms.list (h : Conforms st l) {limit offset : UInt64} (hword : offset.toNat + limit.toNat < 2 ^ 64)
    (status : Option GlobalStatus) :
    ∃ page, Seata.list st limit offset status = .ok page ∧ l.Lists limit.toNat offset.toNat status page := by
  obtain ⟨all, hall, hsorted, hscan⟩ := h.scan
  refine ⟨_, ?_, all, hall, hsorted, rfl⟩
  rw [Seata.list, hscan, UInt64.toNat_add, Nat.mod_eq_of_lt hword, ← List.map_drop, drop_take_window]
  exact decodeMatching_toVec status _

/-- A sum that wraps scans fewer records than are skipped. -/
theorem list_of_wrap (st : Kv) {limit offset : UInt64} (hword : ¬ offset.toNat + limit.toNat < 2 ^ 64)
    (status : Option GlobalStatus) : Seata.list st limit offset status = .ok [] := by
  have hl := limit.toNat_lt
  have ho := offset.toNat_lt
  have hlt : (offset + limit).toNat < offset.toNat := by
    rw [UInt64.toNat_add]
    omega
  have hlen : (scanPrefix st (asBytes "gid:") (offset + limit).toNat).length ≤ offset.toNat := by
    rw [scanPrefix, length_scan]
    exact (Nat.min_le_left _ _).trans hlt.le
  rw [Seata.list, List.drop_eq_nil_of_le hlen]
  rfl

/-! ## Calls -/

/-- A complete operation leaves a store that scans as before. -/
theorem Conforms.scanned_complete (exec : ExecConfig) (h : Conforms st l) (o : Operation) (w : World) {k : Bytes}
    (hk : (asBytes "gid:").isPrefixOf k = true) (hthere : ((complete (o.program exec) w st).2.lookup k).isSome) :
    ∃ g, k = txnKey g := by
  by_cases hown : ∃ g, o.gid w = some g ∧ Owned g k
  · obtain ⟨g, -, rfl | ⟨b, p, rfl⟩⟩ := hown
    · exact ⟨g, rfl⟩
    · rw [show asBytes (Barrier.key g b p) = (⟨g, b, p⟩ : Mark).key from rfl, isPrefixOf_mark] at hk
      cases hk
  · have hothers := ((owned_program exec w o).exec h.refines.sound).2 k hown
    exact h.scanned k hk (by rwa [← hothers])

/-- **An operation of the server is one of the ledger.** -/
theorem Refines.perform (exec : ExecConfig) (h : Refines st l) (o : Operation × World) (hw : o.2.Reliable) :
    (complete (o.1.program exec) o.2 st).1 = (l.perform o).1 ∧
      Refines (complete (o.1.program exec) o.2 st).2 (l.perform o).2 := by
  obtain ⟨o, w⟩ := o
  cases o with
  | request r =>
    obtain ⟨hanswer, hrefines⟩ := serve_refines exec h (r := (r, w)) hw
    have hcomplete : complete ((Operation.request r).program exec) w st =
        (.ok (.done (r.answer w)), (serve exec st (r, w)).2) := by
      have hanswer : ((script (r.handler exec) (.init w)).exec st).2.1.1 = .ok (r.answer w) := hanswer
      rw [complete, Operation.program, script_bind, Script.andThen, Script.exec_bind]
      dsimp only
      rw [hanswer]
      rfl
    rw [hcomplete]
    exact ⟨rfl, hrefines⟩
  | get g =>
    have hc : (Core.init w : Core BranchCall Error).env.Reliable := hw
    have hcomplete : complete ((Operation.get g).program exec) w st = (.ok (.found (l.records g)), st) := by
      rw [complete, Operation.program, load, script_bind, script_bind, script_get, Script.tryRead_andThen,
        Script.tryRead_andThen, Script.exec_tryRead hc, h.sound.lookup, h.records]
      cases l.records g with
      | none => rfl
      | some tx => simp
    rw [hcomplete]
    exact ⟨rfl, h⟩
  | unknown => exact ⟨rfl, h⟩

theorem Conforms.perform (exec : ExecConfig) (h : Conforms st l) (o : Operation × World) (hw : o.2.Reliable) :
    (complete (o.1.program exec) o.2 st).1 = (l.perform o).1 ∧
      Conforms (complete (o.1.program exec) o.2 st).2 (l.perform o).2 := by
  obtain ⟨hresult, hrefines⟩ := h.refines.perform exec o hw
  exact ⟨hresult, hrefines, fun _ => h.scanned_complete exec o.1 o.2⟩

theorem Conforms.serve (exec : ExecConfig) (h : Conforms st l) (c : ServiceCall × World) (hw : c.2.Reliable) :
    ∃ l', l.Answers c (ServiceCall.serve exec st c).1 l' ∧ Conforms (ServiceCall.serve exec st c).2 l' := by
  obtain ⟨c, w⟩ := c
  cases c with
  | call a =>
    obtain ⟨hresult, h'⟩ := h.perform exec (a.operation, w) hw
    have hserve : ServiceCall.serve exec st (.call a, w) =
        (.reply (a.reply (complete (a.operation.program exec) w st).1),
          (complete (a.operation.program exec) w st).2) := by
      simp only [ServiceCall.serve, handler_eq, resolve_bind, Script.exec_bind]
      rfl
    rw [hserve, hresult]
    exact ⟨_, ⟨rfl, rfl⟩, h'⟩
  | httpList q =>
    refine ⟨l, ⟨rfl, ?_⟩, h⟩
    by_cases hword : q.offset.toNat + q.limit.toNat < 2 ^ 64
    · obtain ⟨page, hpage, hlists⟩ := h.list hword q.status
      refine ⟨page, ?_, by rwa [if_pos hword]⟩
      simp only [ServiceCall.serve, Http.listTx, httpListTx, hpage]
    · refine ⟨[], ?_, by rw [if_neg hword]⟩
      simp only [ServiceCall.serve, Http.listTx, httpListTx, list_of_wrap st hword]
  | grpcList r =>
    refine ⟨l, ⟨rfl, ?_⟩, h⟩
    have hword : r.offset.toUInt64.toNat + r.limit.toUInt64.toNat < 2 ^ 64 := by
      have ho := r.offset.toNat_lt
      have hl := r.limit.toNat_lt
      simp only [UInt32.toNat_toUInt64]
      omega
    obtain ⟨page, hpage, hlists⟩ := h.list hword r.filter
    refine ⟨page, ?_, by simpa using hlists⟩
    simp only [ServiceCall.serve, Grpc.list, hpage]

/-- **The replies of the service are those of the ledger**: to any calls of any front ends and lists, in any order, one
complete call after the other. -/
theorem service_refines (exec : ExecConfig) (cs : List (ServiceCall × World)) (hw : ∀ c ∈ cs, c.2.Reliable) :
    Ledger.empty.AnswersAll cs (serveCalls exec ∅ cs) := by
  have hall : ∀ (cs : List (ServiceCall × World)) {st : Kv} {l : Ledger}, Conforms st l →
      (∀ c ∈ cs, c.2.Reliable) → l.AnswersAll cs (serveCalls exec st cs) := by
    intro cs
    induction cs with
    | nil => exact fun _ _ => rfl
    | cons c cs ih =>
      intro st l h hw
      obtain ⟨l', hanswer, h'⟩ := h.serve exec c (hw c List.mem_cons_self)
      exact ⟨_, l', _, rfl, hanswer, ih h' fun c hc => hw c (List.mem_cons_of_mem _ hc)⟩
  exact hall cs conforms_empty hw

end Service

section Example

attribute [local instance] Json.serdeJson

/-- Calls by way of all front ends, and two lists. -/
def servedCalls : List (ServiceCall × World) :=
  mixedCalls.map (fun c => (.call c.1, c.2)) ++
    [(.httpList everythingAfterTheFirst, .calm 5), (.grpcList ⟨10, 0, "COMMITTED"⟩, .calm 6)]

theorem service_refines_servedCalls : Ledger.empty.AnswersAll servedCalls (serveCalls .default ∅ servedCalls) :=
  service_refines .default servedCalls (by simp [servedCalls, mixedCalls, Env.Reliable, Env.calm])

end Example

end Seata
