import Seata.Ownership
import Seata.Genuine
import Seata.Paging
import Seata.Async.Walk

/-!
# Browsing while others write

The scan of a list goes through a live tree: it reads each record at a moment of its own, and the next page at later
ones. Meanwhile the server goes on.

- `list_eq_listDuring`: a list in an instant is a list whose moments are all the same;
- `scanned_run`: what a scan finds in a reachable store are records of what was asked for;
- `pages_cover`: **whoever asks for page after page, up to one that is not full, has seen every transaction that was
  there when he began**, whatever the server did in the meantime.
-/

namespace Seata

open Async

/-! ## Lists that take their time -/

/-- `scan_prefix` with its iterator, which has a moment for each value. -/
def SledKv.scanPrefix (moments : List Kv) (pre : Bytes) (limit : Nat) : List Bytes :=
  (walk (fun k => pre.isPrefixOf k) none (moments.take limit)).map Prod.snd

/-- In an instant, it is the scan of a store. -/
theorem SledKv.scanPrefix_replicate (st : Kv) (pre : Bytes) (limit : Nat) :
    SledKv.scanPrefix (List.replicate limit st) pre limit = Seata.scanPrefix st pre limit := by
  rw [SledKv.scanPrefix, List.take_of_length_le (by simp)]
  exact walk_replicate st limit

section Lists

variable [SerdeJson]

/-- `list` over the moments of its scan. -/
def listDuring (moments : List Kv) (limit offset : UInt64) (status : Option GlobalStatus) :
    Except Error (List GlobalTxn) :=
  let vals := SledKv.scanPrefix moments (asBytes "gid:") (offset + limit).toNat
  decodeMatching status (vals.drop offset.toNat)

/-- **A list in an instant.** -/
theorem list_eq_listDuring (st : Kv) (limit offset : UInt64) (status : Option GlobalStatus) :
    list st limit offset status = listDuring (List.replicate (offset + limit).toNat st) limit offset status := by
  rw [list, listDuring, SledKv.scanPrefix_replicate]

/-! ## What is scanned -/

variable {cs : List (ApiCall × World)} {exec : ExecConfig} {tr : Log}
  {s : Pool Bytes Bytes BranchCall Error ApiReply}

/-- **What a scan finds** in a reachable store: records, under their own gids, of what was asked for. -/
theorem scanned_run (h : Run (arriving exec ∅ cs) tr s) {k v : Bytes} (hk : (asBytes "gid:").isPrefixOf k = true)
    (hv : s.store.lookup k = some v) :
    ∃ tx, (k, v) = (txnKey tx.gid, toVec tx) ∧ Integrity (requestsOf cs) tx.gid tx := by
  have hwritten := h.interleaving.written
  rw [hwritten] at hv
  -- what is in the store was put there, under a key of some transaction
  have hput := (lookup_written hv).resolve_right (by simp [arriving, Pool.init])
  obtain ⟨e, he, hkv⟩ := List.mem_filterMap.mp hput
  obtain ⟨⟨t, e⟩, hm, rfl⟩ := List.mem_map.mp he
  have hkey : e.key? = some k := by
    cases e <;> simp_all [Event.put?, Event.key?]
  obtain ⟨g, -, hown⟩ := (arriving_within sound_empty h).2 t e hm k hkey
  obtain rfl : k = txnKey g := by
    rcases hown with hk' | ⟨b, p, rfl⟩
    · exact hk'
    · rw [show asBytes (Barrier.key g b p) = (⟨g, b, p⟩ : Mark).key from rfl, isPrefixOf_mark] at hk
      cases hk
  rw [← hwritten] at hv
  rw [arriving_eq] at h
  obtain ⟨q, hq, rfl⟩ := run_replying_iff.mp h
  obtain ⟨o, ho, hgid, hI⟩ := ((run_genuine hq).1 (txnKey g)).1 g (Set.mem_univ _) rfl
  have hv : q.store.lookup (txnKey g) = some v := hv
  rw [hv] at ho
  obtain ⟨tx, rfl, rfl⟩ := Option.map_eq_some_iff.mp ho.symm
  exact ⟨tx, by rw [hgid tx rfl], hI tx rfl⟩

/-- A page shows records of what was asked for, each of its moment, in the order of their gids. -/
structure Shows (cs : List (ApiCall × World)) (moments : List (Pool Bytes Bytes BranchCall Error ApiReply))
    (page : List GlobalTxn) : Prop where
  integrity : ∀ tx ∈ page, Integrity (requestsOf cs) tx.gid tx
  current : ∀ tx ∈ page, ∃ s ∈ moments, record s.store tx.gid = some tx
  ordered : page.Pairwise fun a b => asBytes a.gid < asBytes b.gid

/-- The second pool is one that a run from the first one reaches. -/
def Later (s s' : Pool Bytes Bytes BranchCall Error ApiReply) : Prop := ∃ tr, Run s tr s'

omit [SerdeJson] in
theorem Later.isSome {s s' : Pool Bytes Bytes BranchCall Error ApiReply} (h : Later s s') {k : Bytes}
    (hk : (s.store.lookup k).isSome) : (s'.store.lookup k).isSome := by
  obtain ⟨tr, hr⟩ := h
  rw [hr.interleaving.written]
  exact isSome_written hk

omit [SerdeJson] in
theorem lt_of_txnKey_lt {g g' : String} (h : txnKey g < txnKey g') : asBytes g < asBytes g' := by
  rw [txnKey, txnKey, asBytes_append, asBytes_append] at h
  by_contra hle
  rcases (not_lt.mp hle).lt_or_eq with hlt | heq
  · exact lt_asymm h (List.append_left_lt hlt)
  · exact absurd h (by rw [heq]; exact lt_irrefl _)

/-- **A page shows what is there**, when each of its moments is one of a run. -/
theorem exists_page {moments : List (Pool Bytes Bytes BranchCall Error ApiReply)}
    (hreached : ∀ s ∈ moments, ∃ tr, Run (arriving exec ∅ cs) tr s) (n : Nat) :
    ∃ page : List GlobalTxn,
      (walk (fun k => (asBytes "gid:").isPrefixOf k) none (moments.map (·.store))).drop n =
        page.map (fun tx => (txnKey tx.gid, toVec tx)) ∧ Shows cs moments page := by
  have hfound : ∀ x ∈ walk (fun k => (asBytes "gid:").isPrefixOf k) none (moments.map (·.store)),
      ∃ tx, x = (txnKey tx.gid, toVec tx) ∧ Integrity (requestsOf cs) tx.gid tx ∧
        ∃ s ∈ moments, record s.store tx.gid = some tx := by
    rintro ⟨k, v⟩ hx
    obtain ⟨hk, -, st, hst, hlookup⟩ := mem_walk hx
    obtain ⟨s, hs, rfl⟩ := List.mem_map.mp hst
    obtain ⟨tr, hrun⟩ := hreached s hs
    obtain ⟨tx, htx, hI⟩ := scanned_run hrun hk hlookup
    cases htx
    exact ⟨tx, rfl, hI, s, hs, Stored.record hlookup rfl⟩
  obtain ⟨page, hpage, hP⟩ := exists_map_eq fun x hx => hfound x (List.mem_of_mem_drop hx)
  refine ⟨page, hpage, fun tx htx => (hP tx htx).1, fun tx htx => (hP tx htx).2, ?_⟩
  have hsorted :=
    (pairwise_walk (p := fun k => (asBytes "gid:").isPrefixOf k) none (moments.map (·.store))).drop (i := n)
  rw [hpage, List.pairwise_map] at hsorted
  exact hsorted.imp lt_of_txnKey_lt

/-- **Paging sees every transaction that was there when it began.** A client asks for the first `n` transactions, the
next `n`, and so on, and every scan takes its records at moments of its own, one later than the other, while any calls
run. Every page shows current records of what was asked for, in the order of their gids; and once a page is not full,
each transaction that was recorded at the beginning was on one of the pages. -/
theorem pages_cover (exec : ExecConfig) (cs : List (ApiCall × World)) {tr : Log}
    {s₀ : Pool Bytes Bytes BranchCall Error ApiReply} (h : Run (arriving exec ∅ cs) tr s₀) (n : UInt64) (N : Nat)
    (hword : (N + 1) * n.toNat < 2 ^ 64) {moments : Nat → List (Pool Bytes Bytes BranchCall Error ApiReply)}
    (hlen : ∀ i ≤ N, (moments i).length = (i + 1) * n.toNat)
    (hlater : (s₀ :: (List.range (N + 1)).flatMap moments).Pairwise Later) :
    ∃ pages : Nat → List GlobalTxn,
      (∀ i ≤ N, listDuring ((moments i).map (·.store)) n (UInt64.ofNat (i * n.toNat)) none = .ok (pages i) ∧
        Shows cs (moments i) (pages i)) ∧
      ((pages N).length < n.toNat → ∀ g, (record s₀.store g).isSome → ∃ i ≤ N, ∃ tx ∈ pages i, tx.gid = g) := by
  obtain ⟨hfirst, hlater⟩ := List.pairwise_cons.mp hlater
  obtain ⟨-, hpages⟩ := List.pairwise_flatMap.mp hlater
  have hmoment {i : Nat} (hi : i ≤ N) {s : Pool Bytes Bytes BranchCall Error ApiReply} (hs : s ∈ moments i) :
      Later s₀ s := hfirst s (List.mem_flatMap.mpr ⟨i, List.mem_range.mpr (by omega), hs⟩)
  have hreached (i : Nat) (hi : i ≤ N) : ∀ s ∈ moments i, ∃ tr, Run (arriving exec ∅ cs) tr s := by
    intro s hs
    obtain ⟨tr', hr⟩ := hmoment hi hs
    exact ⟨tr ++ tr', h.trans hr⟩
  choose! pages hcut hshows using fun i hi => exists_page (hreached i hi) (i * n.toNat)
  refine ⟨pages, fun i hi => ⟨?_, hshows i hi⟩, fun hshort g hg => ?_⟩
  · have hscanned : (UInt64.ofNat (i * n.toNat) + n).toNat = (i + 1) * n.toNat ∧
        (UInt64.ofNat (i * n.toNat)).toNat = i * n.toNat := by
      have hle : (i + 1) * n.toNat ≤ (N + 1) * n.toNat := Nat.mul_le_mul_right _ (by omega)
      rw [Nat.succ_mul] at hle
      have hoffset : (UInt64.ofNat (i * n.toNat)).toNat = i * n.toNat := by
        rw [UInt64.toNat_ofNat', Nat.mod_eq_of_lt (by omega)]
      rw [UInt64.toNat_add, hoffset, Nat.succ_mul, Nat.mod_eq_of_lt (by omega)]
      exact ⟨rfl, rfl⟩
    rw [listDuring, SledKv.scanPrefix, hscanned.1, hscanned.2, List.take_of_length_le (by simp [hlen i hi]),
      ← List.map_drop, hcut i hi, List.map_map]
    exact (decodeMatching_toVec none (pages i)).trans (by simp)
  · -- otherwise the last page is full
    by_contra hmissed
    have hfull : (pageOf (fun k => (asBytes "gid:").isPrefixOf k) (fun i => (moments i).map (·.store))
        n.toNat N).length = n.toNat := by
      refine length_of_missed (isPrefixOf_txnKey g) (fun i hi => by simp [hlen i hi]) ?_ ?_ ?_
      · rintro i hi st hst st' hst' k hk
        obtain ⟨s, hs, rfl⟩ := List.mem_map.mp hst
        obtain ⟨s', hs', rfl⟩ := List.mem_map.mp hst'
        have hnext := List.pairwise_iff_getElem.mp hpages i (i + 1) (by simp; omega) (by simp; omega) (by omega)
        simp only [List.getElem_range] at hnext
        exact (hnext s hs s' hs').isSome hk
      · rintro i hi st hst
        obtain ⟨s, hs, rfl⟩ := List.mem_map.mp hst
        exact (hmoment hi hs).isSome (Option.isSome_of_isSome_bind hg)
      · intro i hi v hv
        rw [pageOf, hcut i hi] at hv
        obtain ⟨tx, htx, heq⟩ := List.mem_map.mp hv
        exact hmissed ⟨i, hi, tx, htx, txnKey_injective (Prod.mk.inj heq).1⟩
    rw [pageOf, hcut N (Nat.le_refl N), List.length_map] at hfull
    omega

end Lists

section Example

attribute [local instance] Json.serdeJson

def threeStarts : List (ApiCall × World) :=
  ["a", "c", "b"].map fun g => (.http (.start ⟨some g, none, none⟩), .calm 1)

/-- The pool after some turns. -/
def after (s : Pool Bytes Bytes BranchCall Error ApiReply) (ts : List Turn) :
    Pool Bytes Bytes BranchCall Error ApiReply :=
  ((s.exec ts).map Prod.snd).getD s

theorem run_after {s : Pool Bytes Bytes BranchCall Error ApiReply} {ts : List Turn} (h : (s.exec ts).isSome) :
    Later s (after s ts) := by
  obtain ⟨⟨tr, s'⟩, hs⟩ := Option.isSome_iff_exists.mp h
  exact ⟨tr, by rw [after, hs]; exact exec_run hs⟩

/-- Two transactions are there at the beginning, and a third one comes between them while the second page is scanned. -/
theorem pages_cover_late :
    let began := after (arriving .default ∅ threeStarts) [.main 0, .main 0, .main 1, .main 1]
    let ended := after began [.main 2, .main 2]
    ∃ first second : List GlobalTxn, listDuring [began.store, began.store] 2 0 none = .ok first ∧
      listDuring [began.store, ended.store, ended.store, ended.store] 2 2 none = .ok second ∧
      second.map (·.gid) = ["c"] ∧ ∀ g, (record began.store g).isSome → ∃ tx ∈ first ++ second, tx.gid = g := by
  intro began ended
  obtain ⟨tr, h⟩ : Later (arriving .default ∅ threeStarts) began := run_after (by decide +kernel)
  have hstay (s : Pool Bytes Bytes BranchCall Error ApiReply) : Later s s := ⟨[], .nil⟩
  have hgo : Later began ended := run_after (by decide +kernel)
  let moments (i : Nat) := if i = 0 then [began, began] else [began, ended, ended, ended]
  have hlen : ∀ i ≤ 1, (moments i).length = (i + 1) * (2 : UInt64).toNat := by
    rintro (_ | _ | i) hi <;> first | rfl | omega
  obtain ⟨pages, hpages, hcover⟩ := pages_cover .default threeStarts h 2 1 (by decide) hlen
    (by simp [moments, List.range_succ, hstay, hgo])
  have hsecond := (hpages 1 (by omega)).1
  have hgids : (listDuring [began.store, ended.store, ended.store, ended.store] 2 2 none).toOption.map
      (List.map (·.gid)) = some ["c"] := by decide +kernel
  have hlast : (pages 1).map (·.gid) = ["c"] := by
    have hsecond : listDuring [began.store, ended.store, ended.store, ended.store] 2 2 none = .ok (pages 1) := hsecond
    rw [hsecond] at hgids
    exact Option.some.inj hgids
  refine ⟨pages 0, pages 1, (hpages 0 (by omega)).1, hsecond, hlast, fun g hg => ?_⟩
  have hshort : (pages 1).length < 2 := by
    rw [← List.length_map (·.gid), hlast]
    decide
  obtain ⟨i, hi, tx, htx, hgid⟩ := hcover hshort g hg
  refine ⟨tx, List.mem_append.mpr ?_, hgid⟩
  rcases Nat.le_one_iff_eq_zero_or_eq_one.mp hi with rfl | rfl
  · exact .inl htx
  · exact .inr htx

end Example

end Seata
