import Seata.Records
import Seata.Server

/-!
# The scripts of the requests

Every operation of the saga manager reads the record once and then writes from its own copy: its script is one get of
the record (`onRecord` is what it does with the answer) and a fixed list of puts and spawned calls computed from the
copy alone.

- `script_submit`, `script_abort`, `script_addBranch`, `script_setBranch`, `script_start`: the scripts;
- `script_guarded`: the barrier in front of a branch handler.

The hard one is `script_submit`: the handles are zipped with indices that are computed afterwards, and the zip pairs
every prepared branch with its own task (`joinAll_decided`).
-/

namespace Seata

open Async

/-- The script of an operation that returns a value or fails. -/
abbrev Action (α : Type) : Type := Script Bytes Bytes BranchCall (Except Error α × Core BranchCall Error)

/-! ## Dispatch and join -/

section Submit

variable (tx : GlobalTxn)

/-- The numbers of the prepared branches in a list of numbered branches. -/
def indicesOf (l : List (BranchTxn × Nat)) : List Nat := (l.filter fun p => p.1.status == .prepared).map Prod.snd

section Cons

variable {b : BranchTxn} (i : Nat) (l : List (BranchTxn × Nat))

theorem callsOf_prepared (h : b.status = .prepared) : callsOf tx ((b, i) :: l) = branchCall tx i b :: callsOf tx l := by
  simp [callsOf, h]

theorem callsOf_settled (h : b.status ≠ .prepared) : callsOf tx ((b, i) :: l) = callsOf tx l := by
  simp [callsOf, h]

theorem indicesOf_prepared (h : b.status = .prepared) : indicesOf ((b, i) :: l) = i :: indicesOf l := by
  simp [indicesOf, h]

theorem indicesOf_settled (h : b.status ≠ .prepared) : indicesOf ((b, i) :: l) = indicesOf l := by
  simp [indicesOf, h]

end Cons

/-- The core after spawning `xs`. -/
def spawned (c : Core BranchCall Error) (xs : List BranchCall) : Core BranchCall Error :=
  { c with calls := c.calls ++ xs }

@[simp] theorem spawned_nil (c : Core BranchCall Error) : spawned c [] = c := by simp [spawned]

theorem spawned_call (c : Core BranchCall Error) (x : BranchCall) (xs : List BranchCall) :
    spawned (c.call x) xs = spawned c (x :: xs) := by simp [spawned, Core.call]

theorem script_dispatch : ∀ (l : List (BranchTxn × Nat)) (c : Core BranchCall Error), script (dispatch tx l) c =
    .spawnAll (callsOf tx l)
      (.done (.ok (List.range' c.calls.length (callsOf tx l).length), spawned c (callsOf tx l)))
  | [], c => by simp [dispatch, callsOf]
  | (b, i) :: rest, c => by
    by_cases hb : b.status = .prepared
    · have hl : (c.call (branchCall tx i b)).calls.length = c.calls.length + 1 := by simp [Core.call]
      simp only [dispatch, hb, ne_eq, not_true_eq_false, ↓reduceIte, script_bind, script_acquire,
        Script.done_ok_andThen, script_spawn, Script.spawn_andThen, script_dispatch rest, Script.spawnAll_andThen,
        script_pure, hl, spawned_call]
      simp [callsOf, hb, List.range'_succ]
    · simp only [dispatch, hb, ne_eq, not_false_eq_true, ↓reduceIte, script_dispatch rest]
      simp [callsOf, hb]

/-- The record after joining the tasks of the pairs `ps`. -/
def joinedWith (c : Core BranchCall Error) (ps : List (Nat × Nat)) (tx : GlobalTxn) : GlobalTxn :=
  ps.foldl (fun tx p => tx.setStatus p.1 (if (c.joined p.2).getD false then .succeed else .failed)) tx

theorem script_joinAll (c : Core BranchCall Error) : ∀ (ps : List (Nat × Nat)) (tx : GlobalTxn),
    script (joinAll ps tx) c = .done (.ok (joinedWith c ps tx), c)
  | [], tx => rfl
  | (i, h) :: rest, tx => by
    simp only [joinAll, script_bind, script_join, Script.done_ok_andThen, joinedWith, List.foldl_cons]
    split <;> exact script_joinAll c rest _

theorem setStatus_append (pre bs : List BranchTxn) (b : BranchTxn) (s : BranchStatus) :
    ({ tx with branches := pre ++ b :: bs } : GlobalTxn).setStatus pre.length s =
      { tx with branches := pre ++ { b with status := s } :: bs } := by
  simp [GlobalTxn.setStatus, List.modify_eq_set_getElem?]

/-- Setting a prepared branch to the verdict of its own task decides it. -/
theorem withOutcome_prepared {e : World} {i : Nat} {b : BranchTxn} (hb : b.status = .prepared) :
    { b with status := if ((e.call (branchCall tx i b)).verdict.getD false) then .succeed else .failed } =
      withOutcome e tx i b := by
  rw [withOutcome, if_pos hb]
  rfl

/-- The zip of the indices with the handles decides each branch by its own call. The induction is on the branches
that are left; `pre` are those already decided and `cs` the calls already joined. -/
theorem joinedWith_zip (c : Core BranchCall Error) : ∀ (bs pre : List BranchTxn) (cs : List BranchCall),
    c.calls = cs ++ callsOf tx (bs.zipIdx pre.length) →
    joinedWith c ((indicesOf (bs.zipIdx pre.length)).zip
        (List.range' cs.length (callsOf tx (bs.zipIdx pre.length)).length)) { tx with branches := pre ++ bs } =
      { tx with branches := pre ++ (bs.zipIdx pre.length).map fun p => withOutcome c.env tx p.2 p.1 }
  | [], pre, cs, _ => by simp [joinedWith, indicesOf]
  | b :: bs, pre, cs, hc => by
    rw [List.zipIdx_cons] at hc ⊢
    have hlen : ∀ b' : BranchTxn, (pre ++ [b']).length = pre.length + 1 := fun _ => by simp
    by_cases hb : b.status = .prepared
    · rw [callsOf_prepared tx _ _ hb] at hc ⊢
      have ih := joinedWith_zip c bs (pre ++ [withOutcome c.env tx pre.length b]) (cs ++ [branchCall tx pre.length b])
        (by rw [hlen, hc, List.append_assoc]; rfl)
      rw [hlen, List.length_append, List.length_singleton, List.append_assoc, List.append_assoc] at ih
      have hj : c.joined cs.length = (c.env.call (branchCall tx pre.length b)).verdict := by
        simp [Core.joined, hc]
      rw [indicesOf_prepared _ _ hb, List.length_cons, List.range'_succ, List.zip_cons_cons, joinedWith,
        List.foldl_cons, hj, setStatus_append, withOutcome_prepared tx hb]
      exact ih
    · rw [callsOf_settled tx _ _ hb] at hc ⊢
      have ih := joinedWith_zip c bs (pre ++ [b]) cs (by rw [hlen, hc])
      rw [hlen, List.append_assoc, List.append_assoc] at ih
      have hdec : withOutcome c.env tx pre.length b = b := if_neg hb
      rw [indicesOf_settled _ _ hb, List.map_cons, hdec]
      exact ih

/-- **Every prepared branch gets the outcome of its own task.** -/
theorem joinAll_decided (c : Core BranchCall Error) :
    joinedWith (spawned c tx.calls)
        ((preparedIndices tx.branches).zip (List.range' c.calls.length tx.calls.length)) tx =
      { tx with branches := tx.branches.zipIdx.map fun p => withOutcome c.env tx p.2 p.1 } :=
  joinedWith_zip tx (spawned c tx.calls) tx.branches [] c.calls rfl

end Submit

/-! ## The scripts of the operations -/

section Operations

variable [SerdeJson]

/-- What an operation does with the record that its get answered. -/
def onRecord (v : Option Bytes) (c : Core BranchCall Error) (f : GlobalTxn → Core BranchCall Error → Action Unit) :
    Action Unit :=
  match v with
  | none => .done (.ok (), c)
  | some val =>
    match fromSlice val with
    | .ok tx => f tx c
    | .error e => .done (.error e, c)

@[simp] theorem onRecord_none (c : Core BranchCall Error) (f : GlobalTxn → Core BranchCall Error → Action Unit) :
    onRecord none c f = .done (.ok (), c) := rfl

@[simp] theorem onRecord_toVec (tx : GlobalTxn) (c : Core BranchCall Error)
    (f : GlobalTxn → Core BranchCall Error → Action Unit) : onRecord (some (toVec tx)) c f = f tx c := by
  simp [onRecord]

/-- Load a record and go on with it, if there is one. -/
theorem script_load (gid : String) (c : Core BranchCall Error) {g : Option GlobalTxn → Server Unit}
    (hg : g none = pure ()) : script (load gid >>= g) c =
      .tryRead c (txnKey gid) fun v c => onRecord v c fun tx c => script (g (some tx)) c := by
  simp only [load, script_bind, script_get, Script.tryRead_andThen, Script.done_ok_andThen]
  congr 1
  funext v c
  cases v with
  | none => simp [hg]
  | some val =>
    simp only [onRecord]
    cases fromSlice val <;> simp

/-- Save a copy, and nothing more. -/
def saveLast (tx : GlobalTxn) (c : Core BranchCall Error) : Action Unit :=
  .tryWrite c.tick (txnKey tx.gid) (toVec tx) fun c => .done (.ok (), c)

/-- The three saves of `submit`, with the branch calls between the first and the second. -/
def submitRest (tx : GlobalTxn) (c : Core BranchCall Error) : Action Unit :=
  let tx₁ := tx.committing (c.env.clock c.ticks)
  .tryWrite c.tick (txnKey tx.gid) (toVec tx₁) fun c =>
    .spawnAll tx₁.calls
      (let c := spawned c tx₁.calls
       let tx₂ := tx₁.decided c.env (c.env.clock c.ticks)
       .tryWrite c.tick (txnKey tx.gid) (toVec tx₂) fun c =>
         saveLast (tx₂.finalized (c.env.clock c.ticks)) c)

theorem script_submit (exec : ExecConfig) (gid : String) (c : Core BranchCall Error) :
    script (submit exec gid) c = .tryRead c (txnKey gid) fun v c => onRecord v c submitRest := by
  rw [submit, script_load _ _ rfl]
  congr
  funext v c
  congr
  funext tx c
  simp only [script_bind, script_now, Script.done_ok_andThen, save, script_put, Script.tryWrite_andThen,
    script_semaphore, script_dispatch, Script.spawnAll_andThen, script_joinAll]
  have hj := joinAll_decided (tx.committing (c.env.clock c.ticks))
  simp only [GlobalTxn.committing, GlobalTxn.calls] at hj
  simp only [hj]
  rfl

theorem script_abort (gid : String) (c : Core BranchCall Error) : script (abort gid) c =
    .tryRead c (txnKey gid) fun v c => onRecord v c fun tx c => saveLast (tx.aborted (c.env.clock c.ticks)) c := by
  rw [abort, script_load _ _ rfl]
  congr
  funext v c
  congr
  funext tx c
  simp only [script_bind, script_now, Script.done_ok_andThen, save, script_put]
  rfl

/-- The record that `addBranch` saves, unless the branch is there already. -/
theorem script_addBranch (gid branchId action : String) (c : Core BranchCall Error) :
    script (addBranch gid branchId action) c =
      .tryRead c (txnKey gid) fun v c => onRecord v c fun tx c =>
        if tx.hasBranch branchId then .done (.ok (), c)
        else saveLast (tx.withBranch branchId action (c.env.clock c.ticks)) c := by
  rw [addBranch, script_load _ _ rfl]
  congr
  funext v c
  congr
  funext tx c
  unfold GlobalTxn.hasBranch
  cases h : tx.branches.any fun b => b.branchId == branchId
  · simp [h, save]
    rfl
  · simp [h]

/-- The record that `setBranch` saves, if the branch is there. -/
theorem script_setBranch (status : BranchStatus) (gid branchId : String) (c : Core BranchCall Error) :
    script (setBranch status gid branchId) c =
      .tryRead c (txnKey gid) fun v c => onRecord v c fun tx c =>
        match tx.report status branchId with
        | none => .done (.ok (), c)
        | some branches => saveLast (tx.withBranches branches (c.env.clock c.ticks)) c := by
  rw [setBranch, script_load _ _ rfl]
  congr
  funext v c
  congr
  funext tx c
  unfold GlobalTxn.report
  cases h : updateFirst (fun b => b.branchId == branchId) (fun b => { b with status := status }) tx.branches with
  | none => simp [h]
  | some branches =>
    simp only [h, script_bind, script_now, Script.done_ok_andThen, save, script_put]
    rfl

theorem script_start (gid mode : String) (payload : Bytes) (c : Core BranchCall Error) :
    script (start gid mode payload) c =
      let gid := if gid.isEmpty then c.env.id else gid
      let mode := if mode.isEmpty then "saga" else mode
      .tryWrite c.tick (txnKey gid) (toVec (.new gid mode payload (c.env.clock c.ticks))) fun c =>
        .done (.ok gid, c) := by
  cases h : gid.isEmpty
  · simp [start, h, save]
    rfl
  · simp [start, h, save]
    rfl

omit [SerdeJson] in
/-- The barrier in front of a handler: a look at the mark, the mark, and then the operation. -/
theorem script_guarded (phase : BarrierPhase) (gid branchId : String) (operation : Server Unit)
    (c : Core BranchCall Error) :
    script (guarded phase gid branchId operation) c =
      .tryRead c (asBytes (Barrier.key gid branchId phase)) fun v c =>
        if v.isSome then .done (.ok (), c)
        else .tryWrite c (asBytes (Barrier.key gid branchId phase)) [] fun c => script operation c := by
  simp only [guarded, Barrier.insert, script_bind, script_get, Script.tryRead_andThen, Script.done_ok_andThen]
  congr
  funext v c
  cases h : v.isSome <;> simp

end Operations

end Seata
