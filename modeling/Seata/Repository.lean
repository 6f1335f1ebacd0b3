import Seata.Sequential
import Seata.Barrier
import Seata.Async.Scan
import Mathlib.Data.List.Lex

/-!
# The repository and the barrier on one store

`main.rs` gives the transaction repository and the barrier the same backend. Their keys begin with different bytes, so
neither sees what the other one writes, whatever strings the gids and the branch ids are (`repository_shares_store`).

An access of either changes a single key, and by `Access.onKey` in a way that depends only on what is kept under that
key: the rest is what a sequence of accesses does to one key (`lookup_accessAll`).
-/

namespace Seata

open Async

/-! ## Listing -/

instance instLinearOrderByte : LinearOrder UInt8 where
  le_refl _ := UInt8.le_refl _
  le_trans _ _ _ := UInt8.le_trans
  le_antisymm _ _ := UInt8.le_antisymm
  le_total := UInt8.le_total
  lt_iff_le_not_ge a b := by
    rw [UInt8.not_le]
    exact ⟨fun h => ⟨UInt8.le_of_lt h, h⟩, And.right⟩
  toDecidableLE := inferInstance

/-- `scan_prefix` of the store: the values of the first `limit` keys, in byte order, that start with the prefix. -/
def scanPrefix (st : Kv) (pre : Bytes) (limit : Nat) : List Bytes := scan st (fun k => pre.isPrefixOf k) limit

section List

variable [SerdeJson]

/-- The loop of `list`. -/
def decodeMatching (status : Option GlobalStatus) : List Bytes → Except Error (List GlobalTxn)
  | [] => return []
  | v :: vs => do
    let tx ← fromSlice v
    let out ← decodeMatching status vs
    return if (status.map fun s => s == tx.status).getD true then tx :: out else out

/-- The sum of offset and limit is one of machine words. -/
def list (st : Kv) (limit offset : UInt64) (status : Option GlobalStatus) : Except Error (List GlobalTxn) :=
  let vals := scanPrefix st (asBytes "gid:") (offset + limit).toNat
  decodeMatching status (vals.drop offset.toNat)

end List

/-! ## Accesses -/

/-- A call of the repository or of the barrier. -/
inductive Access where
  | save (tx : GlobalTxn)
  | load (gid : String)
  | list (limit offset : UInt64) (status : Option GlobalStatus)
  | barrier (c : BarrierCall)
  deriving DecidableEq, Repr

inductive Answer where
  | saved
  | loaded (tx : Option GlobalTxn)
  | listed (txs : List GlobalTxn)
  | marked (b : Bool)
  deriving DecidableEq, Repr

section Accesses

variable [SerdeJson]

/-- A complete access: its answer, and the store that it leaves. -/
def Access.perform (w : World) (st : Kv) : Access → Except Error Answer × Kv
  | .save tx => (complete (Seata.save tx) w st).map (·.map fun _ => .saved) id
  | .load gid => (complete (Seata.load gid) w st).map (·.map .loaded) id
  | .list limit offset status => ((Seata.list st limit offset status).map .listed, st)
  | .barrier c => (complete c.program w st).map (·.map .marked) id

/-- What the access answers. -/
def accessAnswer (st : Kv) (c : Access × World) : Except Error Answer := (c.1.perform c.2 st).1

/-- The store after accesses, one after the other. -/
def accessAll (st : Kv) (cs : List (Access × World)) : Kv := cs.foldl (fun st c => (c.1.perform c.2 st).2) st

/-- The access reads records. -/
def Access.Reads : Access → Prop
  | .load _ => True
  | .list _ _ _ => True
  | _ => False

def Access.saved : Access → Option GlobalTxn
  | .save tx => some tx
  | _ => none

/-- The last record of `g` that was saved. -/
def lastSaved (g : String) (cs : List (Access × World)) : Option GlobalTxn :=
  ((cs.filterMap fun c => c.1.saved).filter fun tx => tx.gid == g).getLast?

/-! ## One key -/

/-- What an access does to what is kept under a key. -/
def Access.onKey (k : Bytes) (o : Option Bytes) : Access → Option Bytes
  | .save tx => if k = txnKey tx.gid then some (toVec tx) else o
  | .barrier (.insert m) => if k = m.key then some (o.getD []) else o
  | _ => o

section Calls

variable {w : World}

theorem complete_save (hw : w.Reliable) (st : Kv) (tx : GlobalTxn) :
    complete (save tx) w st = (.ok (), st.insert (txnKey tx.gid) (toVec tx)) := by
  have hc : (Core.init w : Core BranchCall Error).env.Reliable := hw
  rw [complete, save, script_put, Script.exec_tryWrite hc, Script.exec_done]

theorem complete_load (hw : w.Reliable) (st : Kv) (gid : String) : complete (load gid) w st =
    (match st.lookup (txnKey gid) with
      | none => .ok none
      | some v => (fromSlice v).map some, st) := by
  have hc : (Core.init w : Core BranchCall Error).env.Reliable := hw
  rw [complete, load, script_bind, script_get, Script.tryRead_andThen, Script.exec_tryRead hc]
  cases st.lookup (txnKey gid) with
  | none => simp
  | some v =>
    simp only [Script.done_ok_andThen]
    cases fromSlice v <;> simp [Except.map]

/-- **An access changes one key**, by what is kept under it. -/
theorem lookup_perform (hw : w.Reliable) (st : Kv) (k : Bytes) (c : Access) :
    (c.perform w st).2.lookup k = c.onKey k (st.lookup k) := by
  cases c with
  | save tx =>
    simp only [Access.perform, complete_save hw]
    exact Script.lookup_insert_ite ..
  | load gid =>
    simp only [Access.perform, complete_load hw]
    rfl
  | list limit offset status => rfl
  | barrier c =>
    cases c with
    | query m =>
      simp only [Access.perform, BarrierCall.program, complete_exists hw]
      rfl
    | insert m =>
      simp only [Access.perform, BarrierCall.program, complete_insert hw, Access.onKey]
      by_cases hm : (st.lookup m.key).isSome
      · obtain ⟨v, hv⟩ := Option.isSome_iff_exists.mp hm
        rw [if_pos hm]
        split
        · subst k
          rw [hv]
          exact hv
        · rfl
      · rw [if_neg hm]
        refine (Script.lookup_insert_ite ..).trans ?_
        split
        · subst k
          rw [Option.not_isSome_iff_eq_none.mp hm]
          rfl
        · rfl

end Calls

/-- What accesses do to one key. -/
theorem lookup_accessAll (k : Bytes) : ∀ (cs : List (Access × World)) (st : Kv), (∀ c ∈ cs, c.2.Reliable) →
    (accessAll st cs).lookup k = cs.foldl (fun o c => c.1.onKey k o) (st.lookup k)
  | [], _, _ => rfl
  | c :: cs, st, h => by
    have ih := lookup_accessAll k cs (c.1.perform c.2 st).2 fun c hc => h c (List.mem_cons_of_mem _ hc)
    rwa [lookup_perform (h c List.mem_cons_self)] at ih

/-! ## Two families of keys -/

omit [SerdeJson] in
theorem isPrefixOf_txnKey (g : String) : (asBytes "gid:").isPrefixOf (txnKey g) = true := by
  rw [txnKey, asBytes_append, List.isPrefixOf_iff_prefix]
  exact List.prefix_append _ _

omit [SerdeJson] in
/-- No mark is scanned. -/
theorem isPrefixOf_mark (m : Mark) : (asBytes "gid:").isPrefixOf m.key = false := by
  have hm : m.key.head? = some 98 := by
    simp only [Mark.key, Barrier.key, asBytes_append, List.append_assoc]
    rfl
  rw [← Bool.not_eq_true, List.isPrefixOf_iff_prefix]
  rintro ⟨t, ht⟩
  have ht : m.key.head? = some 103 := ht ▸ rfl
  exact absurd (hm.symm.trans ht) (by decide)

theorem onKey_insert {k : Bytes} (hk : (asBytes "gid:").isPrefixOf k = true) (m : Mark) (o : Option Bytes) :
    (Access.barrier (.insert m)).onKey k o = o := by
  refine if_neg ?_
  rintro rfl
  rw [isPrefixOf_mark] at hk
  cases hk

theorem onKey_save (m : Mark) (tx : GlobalTxn) (o : Option Bytes) : (Access.save tx).onKey m.key o = o := by
  have hne : m.key ≠ txnKey tx.gid := mark_ne_txnKey m.gid m.branchId m.phase tx.gid
  rw [Access.onKey, if_neg hne]

/-- An access that does nothing to a key can be left out. -/
theorem lookup_eraseIdx {cs : List (Access × World)} (hcs : ∀ c ∈ cs, c.2.Reliable) {i : Nat}
    (hi : i < cs.length) (st : Kv) {k : Bytes} (h : ∀ o, (cs[i]).1.onKey k o = o) :
    (accessAll st (cs.eraseIdx i)).lookup k = (accessAll st cs).lookup k := by
  rw [lookup_accessAll k _ st fun c hc => hcs c (List.mem_of_mem_eraseIdx hc), lookup_accessAll k cs st hcs]
  conv_rhs => rw [← List.take_append_drop i cs, List.drop_eq_getElem_cons hi, List.foldl_append, List.foldl_cons, h]
  rw [List.eraseIdx_eq_take_drop_succ, List.foldl_append]

/-! ## What is scanned -/

/-- Every key that a scan for transactions finds is that of an encoded record. -/
def Scanned (k : Bytes) (o : Option Bytes) : Prop := ∀ v ∈ o, ∃ tx, k = txnKey tx.gid ∧ v = toVec tx

theorem Scanned.onKey {k : Bytes} (hk : (asBytes "gid:").isPrefixOf k = true) {o : Option Bytes} (h : Scanned k o)
    (c : Access) :
    Scanned k (c.onKey k o) := by
  cases c with
  | save tx =>
    rw [Access.onKey]
    split
    · rintro v ⟨⟩
      exact ⟨tx, ‹_›, rfl⟩
    · exact h
  | load gid => exact h
  | list limit offset status => exact h
  | barrier c =>
    cases c with
    | insert m => rwa [onKey_insert hk]
    | query m => exact h

theorem Scanned.lookup {cs : List (Access × World)} (hcs : ∀ c ∈ cs, c.2.Reliable) {k : Bytes}
    (hk : (asBytes "gid:").isPrefixOf k = true) : Scanned k ((accessAll ∅ cs).lookup k) := by
  rw [lookup_accessAll k cs ∅ hcs]
  have h : ∀ (cs : List (Access × World)) (o : Option Bytes), Scanned k o →
      Scanned k (cs.foldl (fun o c => c.1.onKey k o) o) := by
    intro cs
    induction cs with
    | nil => exact fun o ho => ho
    | cons c cs ih => exact fun o ho => ih _ (ho.onKey hk c.1)
  exact h cs _ (by simp [Scanned])

/-- The loop returns the records that have the status. -/
theorem decodeMatching_toVec (status : Option GlobalStatus) :
    ∀ txs : List GlobalTxn, decodeMatching status (txs.map toVec) =
    .ok (txs.filter fun tx => (status.map fun s => s == tx.status).getD true)
  | [] => rfl
  | tx :: txs => by
    rw [List.map_cons, decodeMatching, SerdeJson.fromSlice_toVec, decodeMatching_toVec status txs, List.filter_cons]
    rfl

/-- **A list decodes.** -/
theorem list_ok {cs : List (Access × World)} (hcs : ∀ c ∈ cs, c.2.Reliable) (limit offset : UInt64)
    (status : Option GlobalStatus) : ∃ txs, list (accessAll ∅ cs) limit offset status = .ok txs := by
  have hvals : ∀ v ∈ (scanPrefix (accessAll ∅ cs) (asBytes "gid:") (offset + limit).toNat).drop offset.toNat,
      v ∈ Set.range (toVec : GlobalTxn → Bytes) := by
    intro v hv
    obtain ⟨k, hk, hlook⟩ := exists_of_mem_scan (List.mem_of_mem_drop hv)
    obtain ⟨tx, -, rfl⟩ := Scanned.lookup hcs hk v hlook
    exact ⟨tx, rfl⟩
  obtain ⟨txs, htxs⟩ := (Set.range_list_map (toVec : GlobalTxn → Bytes)).ge hvals
  exact ⟨_, (congrArg (decodeMatching status) htxs.symm).trans (decodeMatching_toVec status txs)⟩

/-! ## Records -/

omit [SerdeJson] in
theorem lastSaved_concat (g : String) (cs : List (Access × World)) (c : Access × World) :
    lastSaved g (cs ++ [c]) = ((c.1.saved).filter fun tx => tx.gid == g).or (lastSaved g cs) := by
  rw [lastSaved, List.filterMap_append, List.filter_append, List.getLast?_append]
  cases h : c.1.saved with
  | none => simp [h, lastSaved]
  | some tx =>
    by_cases hg : tx.gid = g <;> simp [h, hg, lastSaved, Option.filter_some]

/-- **A record is the last that was saved.** -/
theorem lookup_saved {cs : List (Access × World)} (hcs : ∀ c ∈ cs, c.2.Reliable) (g : String) :
    (accessAll ∅ cs).lookup (txnKey g) = (lastSaved g cs).map toVec := by
  rw [lookup_accessAll _ cs ∅ hcs]
  clear hcs
  induction cs using List.reverseRecOn with
  | nil => rfl
  | append_singleton cs c ih =>
    rw [List.foldl_append, ih, lastSaved_concat]
    obtain ⟨c, w⟩ := c
    cases c with
    | save tx =>
      simp only [List.foldl_cons, List.foldl_nil, Access.onKey, Access.saved]
      by_cases hg : tx.gid = g
      · simp [hg, Option.filter_some]
      · have hk : txnKey g ≠ txnKey tx.gid := fun hk => hg (txnKey_injective hk).symm
        simp [hg, hk, Option.filter_some]
    | load gid => rfl
    | list limit offset status => rfl
    | barrier c =>
      cases c with
      | insert m => exact onKey_insert (isPrefixOf_txnKey g) m _
      | query m => rfl

/-! ## The answers -/

section Answers

variable {st st' : Kv} {c : Access × World}

/-- A load or a list answers by what is kept under the keys of transactions. -/
theorem answer_reads (hw : c.2.Reliable) (hc : c.1.Reads)
    (h : ∀ k, (asBytes "gid:").isPrefixOf k = true → st.lookup k = st'.lookup k) :
    accessAnswer st c = accessAnswer st' c := by
  obtain ⟨c, w⟩ := c
  cases c with
  | load gid =>
    simp only [accessAnswer, Access.perform, complete_load hw, Prod.map, h _ (isPrefixOf_txnKey gid)]
  | list limit offset status =>
    simp only [accessAnswer, Access.perform, list, scanPrefix, scan_congr h]
  | _ => exact hc.elim

/-- A call of the barrier answers by what is kept under the key of its mark. -/
theorem answer_barrier {b : BarrierCall} (hw : c.2.Reliable) (hc : c.1 = .barrier b)
    (h : st.lookup b.mark.key = st'.lookup b.mark.key) : accessAnswer st c = accessAnswer st' c := by
  obtain ⟨_, w⟩ := c
  obtain rfl : _ = _ := hc
  simp only [accessAnswer, Access.perform, Prod.map, complete_answer hw]
  cases b with
  | insert m => exact congrArg (fun o : Option Bytes => Except.ok (Answer.marked !o.isSome)) h
  | query m => exact congrArg (fun o : Option Bytes => Except.ok (Answer.marked o.isSome)) h

end Answers

/-- **The repository and the barrier can share one store**: no insert changes what a later load or list answers, no save
changes what a later call of the barrier answers, a load answers with the last record that was saved, and neither a load
nor a list fails. -/
theorem repository_shares_store {cs : List (Access × World)} (hcs : ∀ c ∈ cs, c.2.Reliable) {j : Nat}
    (hj : j < cs.length) :
    (∀ i (hi : i < j) (m : Mark), (cs[i]).1 = .barrier (.insert m) → (cs[j]).1.Reads →
        accessAnswer (accessAll ∅ ((cs.take j).eraseIdx i)) cs[j] = accessAnswer (accessAll ∅ (cs.take j)) cs[j]) ∧
      (∀ i (hi : i < j) (tx : GlobalTxn) (b : BarrierCall), (cs[i]).1 = .save tx → (cs[j]).1 = .barrier b →
        accessAnswer (accessAll ∅ ((cs.take j).eraseIdx i)) cs[j] = accessAnswer (accessAll ∅ (cs.take j)) cs[j]) ∧
      (∀ g, (cs[j]).1 = .load g → accessAnswer (accessAll ∅ (cs.take j)) cs[j] =
        .ok (.loaded (lastSaved g (cs.take j)))) ∧
      ((cs[j]).1.Reads → ∃ a, accessAnswer (accessAll ∅ (cs.take j)) cs[j] = .ok a) := by
  have hpre : ∀ c ∈ cs.take j, c.2.Reliable := fun c hc => hcs c (List.mem_of_mem_take hc)
  have hw : (cs[j]).2.Reliable := hcs _ (List.getElem_mem hj)
  have hload (g : String) (hg : (cs[j]).1 = .load g) :
      accessAnswer (accessAll ∅ (cs.take j)) cs[j] = .ok (.loaded (lastSaved g (cs.take j))) := by
    rw [accessAnswer, hg]
    simp only [Access.perform, complete_load hw, lookup_saved hpre, Prod.map]
    cases lastSaved g (cs.take j) <;> simp [Except.map]
  have hlt {i : Nat} (hi : i < j) : i < (cs.take j).length := by
    rw [List.length_take]
    omega
  refine ⟨?_, ?_, hload, ?_⟩
  · intro i hi m hm hr
    refine answer_reads hw hr fun k hk => lookup_eraseIdx hpre (hlt hi) ∅ fun o => ?_
    rw [List.getElem_take, hm]
    exact onKey_insert hk m o
  · intro i hi tx b htx hb
    refine answer_barrier hw hb (lookup_eraseIdx hpre (hlt hi) ∅ fun o => ?_)
    rw [List.getElem_take, htx]
    exact onKey_save b.mark tx o
  · intro hr
    cases hc : (cs[j]).1 with
    | load g => exact ⟨_, hload g hc⟩
    | list limit offset status =>
      obtain ⟨txs, htxs⟩ := list_ok hpre limit offset status
      refine ⟨.listed txs, ?_⟩
      rw [accessAnswer, hc, Access.perform, htxs]
      rfl
    | save tx =>
      rw [hc] at hr
      exact hr.elim
    | barrier b =>
      rw [hc] at hr
      exact hr.elim

end Accesses

section Example

attribute [local instance] Json.serdeJson

/-- Records and marks with names that look like keys. -/
def sharing : List (Access × World) :=
  [(.save (.new "b" "saga" [] 1), .calm 1), (.barrier (.insert ⟨"gid:b", ":", .cancel⟩), .calm 2),
    (.save (.new "a" "saga" [7] 3), .calm 3), (.save (.new "b" "tcc" [] 4), .calm 4), (.list 1 1 none, .calm 5),
      (.load "b", .calm 6)]

example : (accessAnswer (accessAll ∅ (sharing.take 4)) (.list 1 1 none, .calm 5)) =
    .ok (.listed [.new "b" "tcc" [] 4]) := by
  decide +kernel

theorem sharing_load :
    accessAnswer (accessAll ∅ (sharing.take 5)) sharing[5] = .ok (.loaded (some (.new "b" "tcc" [] 4))) := by
  have hcs : ∀ c ∈ sharing, c.2.Reliable := by simp [sharing, Env.Reliable, Env.calm]
  exact (repository_shares_store hcs (j := 5) (by decide)).2.2.1 "b" rfl

end Example

end Seata
