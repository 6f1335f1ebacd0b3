import Seata.Async.Pool
import Mathlib.Data.List.Sort

/-!
# Scanning a store

An ordered store answers a scan with the values of the first keys, in their order, that pass a test.

- `mem_sortedKeys`, `pairwise_sortedKeys`: each key of the store once, in increasing order — and only one list is that
  (`filter_sortedKeys_eq`);
- `scan_congr`: **a scan depends only on what the store holds under the keys that pass the test**.
-/

namespace Async

variable {K V : Type} [LinearOrder K]

/-- The keys of a store in their order. -/
def sortedKeys (st : Store K V) : List K :=
  Quot.liftOn st.keys.val (List.insertionSort (· ≤ ·)) fun l₁ l₂ h =>
    (((List.perm_insertionSort _ l₁).trans h).trans (List.perm_insertionSort _ l₂).symm).eq_of_pairwise'
      (List.pairwise_insertionSort _ l₁) (List.pairwise_insertionSort _ l₂)

theorem exists_sortedKeys (st : Store K V) :
    ∃ l : List K, st.keys.val = ↑l ∧ sortedKeys st = l.insertionSort (· ≤ ·) := by
  unfold sortedKeys
  induction st.keys.val using Quot.inductionOn with
  | h l => exact ⟨l, rfl, rfl⟩

theorem pairwise_sortedKeys (st : Store K V) : (sortedKeys st).Pairwise (· < ·) := by
  obtain ⟨l, hl, hsorted⟩ := exists_sortedKeys st
  have hnodup : l.Nodup := by
    rw [← Multiset.coe_nodup, ← hl]
    exact st.keys.nodup
  have hle := List.pairwise_insertionSort (· ≤ ·) l
  have hne : (l.insertionSort (· ≤ ·)).Nodup := (List.perm_insertionSort _ l).nodup_iff.mpr hnodup
  rw [hsorted]
  exact hle.imp₂ (fun _ _ => lt_of_le_of_ne) hne

variable [DecidableEq K]

/-- The values of the first `limit` keys that pass the test. -/
def scan (st : Store K V) (p : K → Bool) (limit : Nat) : List V :=
  (((sortedKeys st).filter p).take limit).filterMap fun k => st.lookup k

variable {st st' : Store K V}

theorem mem_sortedKeys {k : K} : k ∈ sortedKeys st ↔ (st.lookup k).isSome := by
  obtain ⟨l, hl, hsorted⟩ := exists_sortedKeys st
  rw [hsorted, List.mem_insertionSort, Finmap.lookup_isSome, ← Finmap.mem_keys, ← Finset.mem_val, hl, Multiset.mem_coe]

/-- The scanned keys are the increasing list of those that are there and pass the test. -/
theorem filter_sortedKeys_eq {p : K → Bool} {l : List K} (hl : l.Pairwise (· < ·))
    (h : ∀ k, k ∈ l ↔ (st.lookup k).isSome ∧ p k = true) : (sortedKeys st).filter p = l :=
  ((pairwise_sortedKeys st).filter p).eq_of_mem_iff hl fun k => by rw [List.mem_filter, mem_sortedKeys, h]

/-- **Scans agree** on stores that agree on the keys that pass the test. -/
theorem scan_congr {p : K → Bool} (h : ∀ k, p k = true → st.lookup k = st'.lookup k) (limit : Nat) :
    scan st p limit = scan st' p limit := by
  have hkeys : (sortedKeys st).filter p = (sortedKeys st').filter p := by
    apply filter_sortedKeys_eq ((pairwise_sortedKeys st').filter p)
    intro k
    rw [List.mem_filter, mem_sortedKeys]
    exact and_congr_left fun hp => by rw [h k hp]
  rw [scan, scan, hkeys]
  refine List.filterMap_congr fun k hk => h k ?_
  exact List.of_mem_filter (List.mem_of_mem_take hk)

/-- What a scan returns is kept under a key that passes the test. -/
theorem exists_of_mem_scan {p : K → Bool} {limit : Nat} {v : V} (h : v ∈ scan st p limit) :
    ∃ k, p k = true ∧ st.lookup k = some v := by
  obtain ⟨k, hk, hv⟩ := List.mem_filterMap.mp h
  exact ⟨k, List.of_mem_filter (List.mem_of_mem_take hk), hv⟩

/-- A scan returns as many values as there are keys that pass the test, up to the limit. -/
theorem length_scan (p : K → Bool) (limit : Nat) : (scan st p limit).length = min limit ((sortedKeys st).countP p) := by
  rw [scan, List.length_filterMap_eq_countP, List.countP_eq_length.mpr, List.length_take, List.countP_eq_length_filter]
  intro k hk
  exact mem_sortedKeys.mp (List.mem_of_mem_filter (List.mem_of_mem_take hk))

end Async
