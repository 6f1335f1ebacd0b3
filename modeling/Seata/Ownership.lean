import Seata.Clients
import Seata.Isolation
import Seata.Barrier

/-!
# What a call touches

A call of any front end touches the record of one transaction and the marks with its gid (`Owned`). Two transactions may
own the same mark, since a gid may contain the separator (`Entangled`); plain gids never do.

- `operating_within`: along every run, each step is on a key that the transaction of its call owns;
- `calls_isolated`: **a transaction is what the requests on it make of it** — the calls on the other transactions, and
  those that only read, can be deleted from a run.
-/

namespace Seata

open Async

/-- The record and the marks of a transaction. -/
def Owned (g : String) (k : Bytes) : Prop := k = txnKey g ∨ ∃ b p, k = asBytes (Barrier.key g b p)

/-- Some mark belongs to both transactions. -/
def Entangled (g g' : String) : Prop := ∃ b b', g ++ ":" ++ b = g' ++ ":" ++ b'

/-- **Transactions that are not entangled share nothing.** -/
theorem eq_or_entangled_of_owned {g g' : String} {k : Bytes} (h : Owned g k) (h' : Owned g' k) :
    g = g' ∨ Entangled g g' := by
  rcases h with rfl | ⟨b, p, rfl⟩ <;> rcases h' with hk | ⟨b', p', hk⟩
  · exact .inl (txnKey_injective hk)
  · exact absurd hk.symm (mark_ne_txnKey g' b' p' g)
  · exact absurd hk (mark_ne_txnKey g b p g')
  · exact .inr ⟨b, b', (key_eq_iff.mp (asBytes_injective hk)).1⟩

/-- Plain gids are not entangled. -/
theorem eq_of_entangled {g g' : String} (hg : Plain g) (hg' : Plain g') (h : Entangled g g') : g = g' := by
  obtain ⟨b, b', hjoin⟩ := h
  exact (key_injective_of_gids hg hg' (key_eq_iff.mpr ⟨hjoin, rfl⟩ : _ = Barrier.key g' b' .cancel)).1

/-- The transaction that an operation is on. -/
def Operation.gid (w : World) : Operation → Option String
  | .request r => some (r.gid w)
  | .get gid => some gid
  | .unknown => none

section Ownership

variable [SerdeJson]

/-! ## The keys of a script -/

/-- The script touches only what `gid` owns, and saves encoded records of their own gids. -/
abbrev OnOwned {α : Type} (gid : String) (x : Action α) : Prop :=
  x.Within (Keeps Set.univ (fun _ => True) anyMark) (Owned gid)

section Scripts

variable {gid : String} {c : Core BranchCall Error}

theorem OnRecord.owned {α : Type} {x : Action α} (h : OnRecord gid x) : OnOwned gid x := h.mono fun _ => .inl

theorem owned_guarded {phase : BarrierPhase} {branchId : String} {operation : Server Unit}
    (h : ∀ c, OnOwned gid (script operation c)) : OnOwned gid (script (guarded phase gid branchId operation) c) := by
  have hmark : Owned gid (asBytes (Barrier.key gid branchId phase)) := .inr ⟨branchId, phase, rfl⟩
  rw [script_guarded]
  refine .tryRead hmark fun v _ => ?_
  split
  · trivial
  · exact .tryWrite hmark (keeps_mark trivial) (h _)

/-- **A request touches only what its transaction owns.** -/
theorem owned_request (exec : ExecConfig) (w : World) (r : Request) :
    OnOwned (r.gid w) (script (r.handler exec) (.init w)) := by
  have hunit {operation : Server Unit} {c : Core BranchCall Error} {gid : String}
      (h : OnOwned gid (script operation c)) :
      OnOwned gid (script (do operation; return none : Server Response) c) := by
    rw [script_bind]
    exact h.andThen fun _ _ => trivial
  have hsaga (r : SagaRequest) {c : Core BranchCall Error} : OnOwned r.gid (script (r.handler exec) c) :=
    OnRecord.owned (own_request exec r)
  cases r with
  | start gid mode payload =>
    rw [Request.handler, script_bind, script_start]
    exact Script.Within.andThen (.tryWrite (.inl rfl) (keeps_toVec rfl trivial) trivial) fun _ _ => trivial
  | submit gid => exact hunit (hsaga (.submit gid))
  | abort gid => exact hunit (hsaga (.abort gid))
  | addBranch gid branchId action => exact hunit (hsaga (.addBranch gid branchId action))
  | branchTry gid branchId action => exact hunit (owned_guarded fun _ => hsaga (.addBranch gid branchId action))
  | branchSucceed gid branchId => exact hunit (owned_guarded fun _ => hsaga (.branchSucceed gid branchId))
  | branchFail gid branchId => exact hunit (owned_guarded fun _ => hsaga (.branchFail gid branchId))

theorem owned_program (exec : ExecConfig) (w : World) (o : Operation) :
    (script (o.program exec) (.init w)).Within (Keeps Set.univ (fun _ => True) anyMark)
      fun k => ∃ g, o.gid w = some g ∧ Owned g k := by
  cases o with
  | request r =>
    rw [Operation.program, script_bind]
    exact ((owned_request exec w r).mono fun k hk => ⟨_, rfl, hk⟩).andThen fun _ _ => trivial
  | get gid =>
    rw [Operation.program, load, script_bind, script_bind, script_get, Script.tryRead_andThen, Script.tryRead_andThen]
    refine .tryRead ⟨gid, rfl, .inl rfl⟩ fun v hv => ?_
    obtain ⟨found, rfl, -, -⟩ := hv.1 gid (Set.mem_univ _) rfl
    cases found with
    | none => trivial
    | some tx => simp [Script.Within]
  | unknown => trivial

end Scripts

/-! ## The keys of a run -/

/-- In every run of operations the store stays sound, and each step is on a key that the transaction of its operation
owns. -/
theorem operating_within (exec : ExecConfig) {st : Kv} (hst : Sound st) {os : List (Operation × World)} {tr : Log}
    {s : Handlers Outcome} (h : Run (operating exec st os) tr s) :
    Sound s.store ∧ ∀ t e, (t, e) ∈ tr → ∀ k, e.key? = some k →
      ∃ o g, os[t.handler]? = some o ∧ o.1.gid o.2 = some g ∧ Owned g k := by
  have hi := h.interleaving
  rw [todos_operating] at hi
  obtain ⟨hs, -, hkeys⟩ := hi.within (P := fun i k => ∃ o g, os[i]? = some o ∧ o.1.gid o.2 = some g ∧ Owned g k) hst
    fun i x hx => by
      obtain ⟨o, ho, rfl⟩ := Option.map_eq_some_iff.mp ((List.getElem?_map ..).symm.trans hx)
      exact (owned_program exec o.2 o.1).mono fun k ⟨g, hg, hk⟩ => ⟨o, g, ho, hg, hk⟩
  exact ⟨hs, hkeys⟩

/-- An operation that is no request puts nothing. -/
theorem quiet_program (exec : ExecConfig) {o : Operation} (ho : ∀ r, o ≠ .request r) :
    (o.program exec).run.Quiet := by
  cases o with
  | request r => exact absurd rfl (ho r)
  | get gid =>
    rw [run_get]
    refine Prog.Quiet.map ⟨nofun, fun r => ?_⟩
    rcases r with e | (_ | v)
    · trivial
    · trivial
    · simp only [Prog.bind, ExceptT.bindCont]
      split <;> trivial
  | unknown => trivial

/-! ## Isolation -/

/-- The transaction of the `i`-th call. -/
def transactionOf (cs : List (ApiCall × World)) (i : Nat) : Option String :=
  cs[i]?.bind fun c => c.1.operation.gid c.2

omit [SerdeJson] in
/-- Calls with plain gids are not entangled with another one. -/
theorem apart_of_plain {cs : List (ApiCall × World)} {g : String} (hg : Plain g)
    (hcs : ∀ c ∈ cs, ∀ g' ∈ c.1.operation.gid c.2, Plain g') (i : Nat) (g' : String)
    (h : transactionOf cs i = some g') : g' = g ∨ ¬ Entangled g' g := by
  obtain ⟨c, hc, hgid⟩ := Option.bind_eq_some_iff.mp h
  rw [or_iff_not_imp_left]
  exact fun hne hent => hne (eq_of_entangled (hcs c (List.mem_of_getElem? hc) g' hgid) hg hent)

/-- The `i`-th call is a request, and not one that only reads. -/
def isRequest (cs : List (ApiCall × World)) (i : Nat) : Bool :=
  cs[i]?.any fun c => match c.1.operation with
    | .request _ => true
    | _ => false

variable {cs : List (ApiCall × World)} {exec : ExecConfig} {st : Kv} {tr : Log}
  {s : Pool Bytes Bytes BranchCall Error ApiReply}

/-- In every run of calls the store stays sound, and each step is on a key that the transaction of its call owns. -/
theorem arriving_within (hst : Sound st) (h : Run (arriving exec st cs) tr s) :
    Sound s.store ∧ ∀ t e, (t, e) ∈ tr → ∀ k, e.key? = some k →
      ∃ g, transactionOf cs t.handler = some g ∧ Owned g k := by
  rw [arriving_eq] at h
  obtain ⟨q, hq, rfl⟩ := run_replying_iff.mp h
  obtain ⟨hs, hkeys⟩ := operating_within exec hst hq
  refine ⟨hs, fun t e hm k hk => ?_⟩
  obtain ⟨o, g, ho, hg, hown⟩ := hkeys t e hm k hk
  obtain ⟨c, hc, rfl⟩ := Option.map_eq_some_iff.mp ((List.getElem?_map ..).symm.trans ho)
  exact ⟨g, by rw [transactionOf, hc]; exact hg, hown⟩

/-- **A call that only reads puts nothing**, in any run. -/
theorem reads_quiet (h : Run (arriving exec st cs) tr s) {t : Turn} {e : Event Bytes Bytes BranchCall}
    (hm : (t, e) ∈ tr) (hread : isRequest cs t.handler = false) : e.put? = none := by
  refine (h.quiet fun p hp => ?_).2 t e hm rfl
  simp only [arriving, Pool.init, List.getElem?_map, Option.map_eq_some_iff] at hp
  obtain ⟨_, ⟨c, hc, rfl⟩, rfl⟩ := hp
  show (c.1.handler exec).Quiet
  rw [handler_eq]
  refine (quiet_program exec fun r hr => ?_).map
  simp [isRequest, hc, hr] at hread

/-- **A transaction is what the requests on it make of it.** Delete from any run all steps of the calls on other
transactions, if these are not entangled with it, and those of any calls on it that only read: what is left is a run, in
which each remaining call does and replies the same, and which leaves the same record and the same marks. -/
theorem calls_isolated (exec : ExecConfig) {st : Kv} (hst : Sound st) (cs : List (ApiCall × World)) (g : String)
    (hg : ∀ i g', transactionOf cs i = some g' → g' = g ∨ ¬ Entangled g' g) {I : Nat → Bool}
    (hon : ∀ i, I i = true → transactionOf cs i = some g)
    (hall : ∀ i, transactionOf cs i = some g → isRequest cs i = true → I i = true) {tr : Log}
    {s : Pool Bytes Bytes BranchCall Error ApiReply} (h : Run (arriving exec st cs) tr s) :
    ∃ s', Run (arriving exec st cs) (tr.filter fun x => I x.1.handler) s' ∧
      (∀ i, I i = true → s'.procs[i]? = s.procs[i]?) ∧ ∀ k, Owned g k → s'.store.lookup k = s.store.lookup k := by
  have hkeys := (arriving_within hst h).2
  let J (i : Nat) : Bool := decide (transactionOf cs i = some g)
  obtain ⟨s₁, hrun₁, hprocs₁, hstore₁⟩ := h.project J (Q := Owned g) (fun t e hm hJ k hk => by
    obtain ⟨g', hg', hown⟩ := hkeys t e hm k hk
    cases hg'.symm.trans (of_decide_eq_true hJ)
    exact hown) fun t e hm hJ k hk hown => by
    obtain ⟨g', hg', hown'⟩ := hkeys t e hm k hk
    obtain rfl : g' = g := by
      rcases hg _ _ hg' with heq | hapart
      · exact heq
      · exact (eq_or_entangled_of_owned hown' hown).resolve_right hapart
    exact of_decide_eq_false hJ hg'
  obtain ⟨s', hrun, hprocs, hstore⟩ := hrun₁.omit I fun t e hm hI => by
    obtain ⟨-, hJ⟩ := List.mem_filter.mp hm
    refine reads_quiet hrun₁ hm ?_
    by_contra hreq
    have := hall _ (of_decide_eq_true hJ) (by simpa using hreq)
    rw [hI] at this
    cases this
  have hfilter : (tr.filter fun x => J x.1.handler).filter (fun x => I x.1.handler) =
      tr.filter fun x => I x.1.handler := by
    rw [List.filter_filter]
    refine List.filter_congr fun x _ => ?_
    cases hI : I x.1.handler with
    | true => simp [J, hon _ hI]
    | false => rfl
  rw [hfilter] at hrun
  refine ⟨s', hrun, fun i hi => ?_, fun k hk => ?_⟩
  · rw [hprocs i hi, hprocs₁ i (decide_eq_true (hon i hi))]
  · rw [hstore, hstore₁ k hk]

end Ownership

section Example

attribute [local instance] Json.serdeJson

/-- Two transactions, and a client that looks at one of them. -/
def twoGids : List (ApiCall × World) :=
  [(.http (.start ⟨some "g", none, some [1]⟩), .calm 1), (.grpc (.branchTry ⟨"h", "b", "http://b"⟩), .calm 2),
    (.http (.getTx "g"), .calm 3), (.jsonrpc ⟨"2.0", "abort", some (.gid "g"), .null⟩, .calm 4)]

/-- The start and the abort alone make of the transaction what it is. -/
theorem calls_isolated_twoGids : ∃ tr s s', Run (arriving .default ∅ twoGids) tr s ∧
    Replied s 3 (.done none) ∧ Run (arriving .default ∅ twoGids) (tr.filter fun x => x.1.handler ∈ [0, 3]) s' ∧
      s'.procs[3]? = s.procs[3]? ∧ s'.store.lookup (txnKey "g") = s.store.lookup (txnKey "g") := by
  have hplain : ∀ c ∈ twoGids, ∀ g' ∈ c.1.operation.gid c.2, Plain g' := by
    unfold Plain
    decide
  have hapart := apart_of_plain (g := "g") (by simp [Plain]) hplain
  have hon (i : Nat) (h : decide (i ∈ [0, 3]) = true) : transactionOf twoGids i = some "g" := by
    rcases (by simpa using h : i = 0 ∨ i = 3) with rfl | rfl <;> rfl
  have hall (i : Nat) (h : transactionOf twoGids i = some "g") (hr : isRequest twoGids i = true) :
      decide (i ∈ [0, 3]) = true := by
    rcases i with _ | _ | _ | _ | i
    · rfl
    · exact absurd (Option.some.inj h) (by decide)
    · cases hr
    · rfl
    · cases h
  obtain ⟨tr, s, h, hq⟩ := run_of_exec (s := arriving .default ∅ twoGids)
    [.main 0, .main 1, .main 0, .main 2, .main 1, .main 1, .main 3, .main 3, .main 3]
    (fun x => decide (Replied x.2 3 (.done none))) (by decide +kernel)
  obtain ⟨s', hrun, hprocs, hstore⟩ := calls_isolated .default sound_empty twoGids "g" hapart hon hall h
  exact ⟨tr, s, s', h, of_decide_eq_true hq, hrun, hprocs 3 rfl, hstore _ (.inl rfl)⟩

end Example

end Seata
