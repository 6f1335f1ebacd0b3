import Seata.Sequential
import Seata.Async.Serial
import Mathlib.Data.List.Permutation

/-!
# Concurrent requests on one transaction

Every operation of the saga manager saves the whole record from its own copy, and nothing stops another request from
saving in between: updates get lost (`lost_update`). A run whose saves are all made from copies that are up to date
leaves the record that the same requests leave when they run one at a time in some order (`validated_serializable`).

- `SagaRequest.change`: what a request does with the record that it has loaded, `modifies_answer` its load-modify-save
  form;
- `manageAll`: the requests one at a time.
-/

namespace Seata

open Async

section Requests

variable [SerdeJson]

/-! ## Requests one at a time -/

/-- The store after one complete request. -/
def manage (exec : ExecConfig) (st : Kv) (r : SagaRequest × World) : Kv :=
  ((script (r.1.handler exec) (.init r.2)).exec st).2.2

/-- The store after complete requests, one after the other. -/
def manageAll (exec : ExecConfig) (st : Kv) (rs : List (SagaRequest × World)) : Kv := rs.foldl (manage exec) st

/-- **A run of one handler that has returned** is a complete request. -/
theorem manage_of_run {exec : ExecConfig} {st : Kv} {r : SagaRequest × World} {tr : Log} {s : Handlers Unit}
    (h : Run (managing exec st [r]) tr s) (hok : s.AllOk) : manage exec st r = s.store := by
  obtain ⟨a, c, hx⟩ := run_alone_complete h hok
  have hx : (script (r.1.handler exec) (.init r.2)).exec st = _ := hx
  rw [manage, hx]

theorem manage_addBranch (exec : ExecConfig) {st : Kv} {tx : GlobalTxn} (hst : Stored st tx) {gid : String}
    (branchId action : String) {w : World} (hgid : tx.gid = gid) (hw : w.Reliable)
    (hnew : ¬ tx.hasBranch branchId = true) :
    Stored (manage exec st (.addBranch gid branchId action, w)) (tx.withBranch branchId action (w.clock 0)) := by
  subst hgid
  have hc : (Core.init w : Core BranchCall Error).env.Reliable := hw
  have hc' : (Core.init w : Core BranchCall Error).io.tick.env.Reliable := hw
  have hlookup : st.lookup (txnKey tx.gid) = some (toVec tx) := hst
  rw [manage, SagaRequest.handler, script_addBranch, Script.exec_tryRead hc, hlookup, onRecord_toVec, if_neg hnew,
    saveLast, Script.exec_tryWrite hc']
  exact Finmap.lookup_insert _

/-! ## What a request does with its copy -/

/-- Append the branch if it is not there. -/
def saveAdded (branchId action : String) (tx : GlobalTxn) (c : Core BranchCall Error) : Action Unit :=
  if tx.hasBranch branchId then .done (.ok (), c)
  else saveLast (tx.withBranch branchId action (c.env.clock c.ticks)) c

/-- Give the branch its status if it is there. -/
def saveReported (status : BranchStatus) (branchId : String) (tx : GlobalTxn) (c : Core BranchCall Error) :
    Action Unit :=
  match tx.report status branchId with
  | none => .done (.ok (), c)
  | some branches => saveLast (tx.withBranches branches (c.env.clock c.ticks)) c

def SagaRequest.change : SagaRequest → GlobalTxn → Core BranchCall Error → Action Unit
  | .submit _ => submitRest
  | .abort _ => fun tx c => saveLast (tx.aborted (c.env.clock c.ticks)) c
  | .addBranch _ branchId action => saveAdded branchId action
  | .branchSucceed _ branchId => saveReported .succeed branchId
  | .branchFail _ branchId => saveReported .failed branchId

/-- A request loads the record once and goes on with its copy. -/
theorem script_handler (exec : ExecConfig) (r : SagaRequest) (c : Core BranchCall Error) :
    script (r.handler exec) c = .tryRead c (txnKey r.gid) fun v c => onRecord v c r.change := by
  cases r with
  | submit gid => exact script_submit exec gid c
  | abort gid => exact script_abort gid c
  | addBranch gid branchId action => exact script_addBranch gid branchId action c
  | branchSucceed gid branchId => exact script_setBranch .succeed gid branchId c
  | branchFail gid branchId => exact script_setBranch .failed gid branchId c

/-- What is done with the answer of the get. -/
def answer (r : SagaRequest × World) (v : Option Bytes) : Action Unit := onRecord v (Core.io (.init r.2)) r.1.change

theorem script_answer (exec : ExecConfig) {r : SagaRequest × World} (hr : r.2.fault 0 = none) :
    script (r.1.handler exec) (.init r.2) = .read (txnKey r.1.gid) (answer r) := by
  rw [script_handler, Script.tryRead]
  simp only [Core.init, hr]
  rfl

/-! ## Load, modify, save -/

/-- An encoded record of the transaction. -/
def RecordOf (gid : String) (v : Option Bytes) : Prop := ∃ tx, v = some (toVec tx) ∧ tx.gid = gid

/-- The frame of an encoded record. -/
def frameOf (v : Option Bytes) : Option Frame :=
  (v.bind fun v => (fromSlice v).toOption).map GlobalTxn.frame

@[simp] theorem frameOf_toVec (tx : GlobalTxn) : frameOf (some (toVec tx)) = some tx.frame := by
  simp [frameOf, Except.toOption]

omit [SerdeJson] in
/-- Whether the record has the branch can be read off its frame. -/
theorem hasBranch_of_frame {a b : GlobalTxn} (h : a.frame = b.frame) (branchId : String) :
    a.hasBranch branchId = b.hasBranch branchId := by
  have hl : a.branches.map BranchTxn.label = b.branches.map BranchTxn.label := congrArg Frame.branches h
  have hany (tx : GlobalTxn) : tx.hasBranch branchId = (tx.branches.map BranchTxn.label).any fun l =>
      l.1 == branchId := by
    rw [List.any_map]
    rfl
  rw [hany, hany, hl]

section Change

variable {gid : String} {c : Core BranchCall Error} {tx : GlobalTxn} {a : Option Frame}

/-- The rule for what a request does with its copy. -/
abbrev SavesRecord (gid : String) (a : Option Frame) (x : Action Unit) : Prop :=
  x.Saves (txnKey gid) (RecordOf gid) frameOf a

/-- A save that is the last one. -/
theorem saves_saveLast (h : tx.gid = gid) : SavesRecord gid a (saveLast tx c) :=
  .tryWrite (by rw [h]) ⟨tx, rfl, h⟩ (fun hl => by cases hl) trivial

theorem saves_submit (h : tx.gid = gid) : SavesRecord gid (some tx.frame) (submitRest tx c) := by
  subst h
  unfold submitRest
  refine .tryWrite (k := txnKey tx.gid) rfl ⟨_, rfl, rfl⟩ (fun _ => by simp) ?_
  refine .spawnAll ?_ _
  refine .tryWrite (k := txnKey tx.gid) rfl ⟨_, rfl, rfl⟩ (fun _ => by simp) ?_
  exact saves_saveLast rfl

theorem saves_added {branchId action : String} (h : tx.gid = gid) :
    SavesRecord gid a (saveAdded branchId action tx c) := by
  unfold saveAdded
  split
  · trivial
  · exact saves_saveLast h

theorem saves_reported {status : BranchStatus} {branchId : String} (h : tx.gid = gid) :
    SavesRecord gid a (saveReported status branchId tx c) := by
  unfold saveReported
  split
  · trivial
  · exact saves_saveLast h

/-- A request keeps what was there, or saves it; only a submit saves more than once. -/
theorem saves_change (r : SagaRequest) (h : tx.gid = gid) : SavesRecord gid (some tx.frame) (r.change tx c) := by
  cases r with
  | submit _ => exact saves_submit h
  | abort _ => exact saves_saveLast h
  | addBranch _ _ _ => exact saves_added h
  | branchSucceed _ _ => exact saves_reported h
  | branchFail _ _ => exact saves_reported h

omit [SerdeJson] in
theorem report_isSome (status : BranchStatus) {branchId : String} :
    (tx.report status branchId).isSome = tx.hasBranch branchId := by
  cases h : tx.report status branchId with
  | none => exact (Bool.not_eq_true _ ▸ GlobalTxn.report_eq_none.mp h).symm
  | some bs =>
    by_contra hb
    have hb : ¬ tx.hasBranch branchId = true := fun ht => hb ht.symm
    rw [GlobalTxn.report_eq_none.mpr hb] at h
    cases h

theorem last_saveLast : (saveLast tx c).last.isSome = (c.env.fault c.ios).isNone := Script.last_tryWrite

theorem last_submitRest : (submitRest tx c).last.isSome = (c.env.fault c.ios).isNone := by
  unfold submitRest
  exact Script.last_tryWrite

theorem last_added {branchId action : String} : (saveAdded branchId action tx c).last.isSome =
    (!tx.hasBranch branchId && (c.env.fault c.ios).isNone) := by
  unfold saveAdded
  cases tx.hasBranch branchId
  · exact last_saveLast
  · rfl

theorem last_reported {status : BranchStatus} {branchId : String} : (saveReported status branchId tx c).last.isSome =
    (tx.hasBranch branchId && (c.env.fault c.ios).isNone) := by
  unfold saveReported
  rw [← report_isSome status]
  cases tx.report status branchId
  · rfl
  · exact last_saveLast

/-- Whether a request saves at all depends on the frame of its copy. -/
theorem last_change (r : SagaRequest) {tx' : GlobalTxn} (h : tx.frame = tx'.frame) :
    (r.change tx c).last.isSome = (r.change tx' c).last.isSome := by
  cases r with
  | submit _ => exact last_submitRest.trans last_submitRest.symm
  | abort _ => exact last_saveLast.trans last_saveLast.symm
  | addBranch _ b _ => exact last_added.trans (hasBranch_of_frame h b ▸ last_added.symm)
  | branchSucceed _ b => exact last_reported.trans (hasBranch_of_frame h b ▸ last_reported.symm)
  | branchFail _ b => exact last_reported.trans (hasBranch_of_frame h b ▸ last_reported.symm)

end Change

/-- **Every request is of the form load, modify, save.** -/
theorem modifies_answer (r : SagaRequest × World) :
    Modifies (txnKey r.1.gid) (RecordOf r.1.gid) frameOf (answer r) where
  saves := by
    rintro v ⟨tx, rfl, h⟩
    rw [answer, onRecord_toVec, frameOf_toVec]
    exact saves_change r.1 h
  alike := by
    rintro v v' ⟨tx, rfl, -⟩ ⟨tx', rfl, -⟩ hf hl
    simp only [frameOf_toVec, Option.some.injEq] at hf
    rw [answer, onRecord_toVec] at hl ⊢
    rw [← last_change r.1 hf]
    exact hl

/-! ## Serializability -/

/-- The records agree but for the time of their last update. -/
def GlobalTxn.Agree (a b : GlobalTxn) : Prop := { a with updatedUnix := 0 } = { b with updatedUnix := 0 }

omit [SerdeJson] in
theorem GlobalTxn.Agree.branches {a b : GlobalTxn} (h : a.Agree b) : a.branches = b.branches := by
  unfold GlobalTxn.Agree at h
  injection h

/-- The record that is left is that of the requests run one at a time in some order. -/
def Serializable (exec : ExecConfig) (gid : String) (rs : List (SagaRequest × World)) (st st' : Kv) : Prop :=
  ∃ rs', rs'.Perm rs ∧ ∃ a b, record st' gid = some a ∧ record (manageAll exec st rs') gid = some b ∧ a.Agree b

/-- A request whose first storage call fails does not return. -/
theorem loads_of_ok {exec : ExecConfig} {st : Kv} {rs : List (SagaRequest × World)} {tr : Log} {s : Handlers Unit}
    (h : Run (managing exec st rs) tr s) (hok : s.AllOk) {r : SagaRequest × World} (hr : r ∈ rs) :
    r.2.fault 0 = none := by
  cases hf : r.2.fault 0 with
  | none => rfl
  | some e =>
    obtain ⟨i, hi⟩ := List.getElem?_of_mem hr
    have hdone : (managing exec st rs).todos[i]? = some (.done (.error e, Core.io (.init r.2))) := by
      have hscript : script (r.1.handler exec) (.init r.2) = .done (.error e, Core.io (.init r.2)) := by
        rw [script_handler, Script.tryRead]
        simp only [Core.init, hf]
      rw [managing_todos, List.getElem?_map, hi]
      exact congrArg some hscript
    obtain ⟨b, hb, a, ha⟩ := todos_allOk hok _ (List.mem_of_getElem? (h.interleaving.done hdone))
    cases hb
    cases ha

/-- **Validated runs are serializable.** -/
theorem validated_serializable (exec : ExecConfig) {st : Kv} {tx : GlobalTxn} (hst : Stored st tx)
    {rs : List (SagaRequest × World)} (hrs : ∀ r ∈ rs, r.1.gid = tx.gid) {tr : Log} {s : Handlers Unit}
    (h : Run (managing exec st rs) tr s) (hok : s.AllOk) (hv : Validated (txnKey tx.gid) tr) :
    Serializable exec tx.gid rs st s.store := by
  have hload : ∀ r ∈ rs, script (r.1.handler exec) (.init r.2) = .read (txnKey tx.gid) (answer r) := by
    intro r hr
    rw [script_answer exec (loads_of_ok h hok hr), hrs r hr]
  have htodos : (managing exec st rs).todos = rs.map fun r => .read (txnKey tx.gid) (answer r) := by
    rw [managing_todos]
    exact List.map_congr_left hload
  have hF : ∀ r ∈ rs, Modifies (txnKey tx.gid) (RecordOf tx.gid) frameOf (answer r) := by
    intro r hr
    rw [← hrs r hr]
    exact modifies_answer r
  have hP : RecordOf tx.gid (st.lookup (txnKey tx.gid)) := ⟨tx, hst, rfl⟩
  have hi := h.interleaving
  rw [htodos] at hi
  obtain ⟨rs', hperm, hvalue⟩ := hi.serial hF hP hv fun x hx => (todos_allOk hok x hx).imp fun b hb => hb.1
  have hF' : ∀ r ∈ rs', Modifies (txnKey tx.gid) (RecordOf tx.gid) frameOf (answer r) := fun r hr =>
    hF r (hperm.mem_iff.mp hr)
  have hserial : (manageAll exec st rs').lookup (txnKey tx.gid) = s.store.lookup (txnKey tx.gid) := by
    rw [hvalue]
    refine serially_eq_exec hF' (fun r hr st => ?_) hP
    rw [manage, hload r (hperm.mem_iff.mp hr)]
  obtain ⟨tx', htx, -⟩ : RecordOf tx.gid (s.store.lookup (txnKey tx.gid)) := by
    rw [hvalue]
    exact serially_within hP hF'
  refine ⟨rs', hperm, tx', tx', ?_, ?_, rfl⟩
  · simp [record, htx, Except.toOption]
  · simp [record, hserial, htx, Except.toOption]

end Requests

section Example

attribute [local instance] Json.serdeJson

/-- A transaction without branches. -/
def noBranch : GlobalTxn := .new "g" "" [] 1

def addC : SagaRequest × World := (.addBranch "g" "c" "", .calm 2)
def addD : SagaRequest × World := (.addBranch "g" "d" "", .calm 3)

/-- One of the two after the other adds both branches. -/
theorem adds_in_order {rs : List (SagaRequest × World)} (h : rs.Perm [addC, addD]) :
    ∃ tx, record (manageAll .default (holding noBranch) rs) "g" = some tx ∧ tx.branches.length = 2 := by
  have hst := stored_holding noBranch
  have hc : (Env.calm 2 : World).Reliable := fun _ => rfl
  have hd : (Env.calm 3 : World).Reliable := fun _ => rfl
  rcases List.perm_pair.mp h with rfl | rfl <;> simp only [manageAll, List.foldl_cons, List.foldl_nil, addC, addD]
  · have h₁ := manage_addBranch .default hst "c" "" rfl hc (by decide)
    have h₂ := manage_addBranch .default h₁ "d" "" rfl hd (by decide)
    exact ⟨_, h₂.record rfl, rfl⟩
  · have h₁ := manage_addBranch .default hst "d" "" rfl hd (by decide)
    have h₂ := manage_addBranch .default h₁ "c" "" rfl hc (by decide)
    exact ⟨_, h₂.record rfl, rfl⟩

/-- How many branches the record has. -/
def branchCount (st : Kv) : Option Nat := (record st "g").map fun tx => tx.branches.length

/-- Two branches are added at the same time, each to its own copy. -/
theorem lost_update : ¬ ∀ (exec : ExecConfig) (st : Kv) (tx : GlobalTxn) (rs : List (SagaRequest × World)) (tr : Log)
    (s : Handlers Unit), Stored st tx → (∀ r ∈ rs, r.1.gid = tx.gid) → Run (managing exec st rs) tr s → s.AllOk →
      Serializable exec tx.gid rs st s.store := by
  intro hall
  have hexec : ((managing .default (holding noBranch) [addC, addD]).exec
      [.main 0, .main 1, .main 0, .main 0, .main 1, .main 1]).any
        (fun x => decide (x.2.AllOk ∧ branchCount x.2.store = some 1)) = true := by decide +kernel
  obtain ⟨tr, s, h, hq⟩ := run_of_exec _ _ hexec
  obtain ⟨hok, hleft⟩ := of_decide_eq_true hq
  obtain ⟨rs', hperm, a, b, ha, hb, hab⟩ := hall .default _ noBranch [addC, addD] tr s (stored_holding noBranch)
    (by simp [addC, addD, SagaRequest.gid, noBranch, GlobalTxn.new]) h hok
  obtain ⟨tx, htx, hlength⟩ := adds_in_order hperm
  obtain rfl : b = tx := Option.some.inj (hb.symm.trans htx)
  have ha : record s.store "g" = some a := ha
  rw [branchCount, ha, Option.map_some, hab.branches, hlength] at hleft
  cases hleft

/-- A request that saves nothing looks at the record in the middle of a submit. -/
theorem validated_serializable_submit : ∃ tr s,
    let rs : List (SagaRequest × World) := [(.submit "g", .calm 2), (.addBranch "g" "b" "u", .calm 3)]
    Run (managing .default (holding oneBranch) rs) tr s ∧ Serializable .default "g" rs (holding oneBranch) s.store := by
  have hexec : ((managing .default (holding oneBranch) [(.submit "g", .calm 2), (.addBranch "g" "b" "u", .calm 3)]).exec
      [.main 0, .main 0, .main 0, .main 1, .main 0, .main 0, .main 0, .task 0 0, .main 0, .main 0, .main 0,
        .main 0, .main 0]).any
        (fun x => decide (x.2.AllOk ∧ Validated (txnKey "g") x.1)) = true := by decide +kernel
  obtain ⟨tr, s, h, hq⟩ := run_of_exec _ _ hexec
  obtain ⟨hok, hv⟩ := of_decide_eq_true hq
  exact ⟨tr, s, h, validated_serializable .default (stored_holding oneBranch)
    (by simp [SagaRequest.gid, oneBranch]) h hok hv⟩

end Example

end Seata
