import Seata.Repository
import Seata.Async.Pages

/-!
# Pages of transactions

After any accesses the store holds the last record of every gid that was saved, and a list scans them in the byte order
of their gids (`transactions`, `list_eq`): the scan is cut to offset and limit first, and filtered by the status
afterwards.

- `pages_enumerate`: the pages of one size enumerate the transactions, with a filter or without;
- `filtered_page_iff`: exactly when a filtered page is a page of the filtered list;
- `unfiltered_page_iff`: exactly when the sum of offset and limit does no harm.
-/

namespace Seata

open Async

/-! ## The stored transactions -/

/-- The order of the bytes of two gids. -/
def ByteLe (g g' : String) : Prop := asBytes g ≤ asBytes g'

instance : DecidableRel ByteLe := fun g g' => inferInstanceAs (Decidable (asBytes g ≤ asBytes g'))

instance : Std.Total ByteLe := ⟨fun g g' => le_total (asBytes g) (asBytes g')⟩

instance : IsTrans String ByteLe := ⟨fun _ _ _ => le_trans⟩

/-- The gids of the saved records, in the order of their bytes. -/
def savedGids (cs : List (Access × World)) : List String :=
  ((cs.filterMap fun c => c.1.saved).map GlobalTxn.gid).dedup.insertionSort ByteLe

/-- The last record of every gid, in the order of the gids. -/
def transactions (cs : List (Access × World)) : List GlobalTxn := (savedGids cs).filterMap fun g => lastSaved g cs

/-- The record passes the filter. -/
def Passes (status : Option GlobalStatus) (tx : GlobalTxn) : Bool := (status.map fun s => s == tx.status).getD true

section Transactions

variable {cs : List (Access × World)}

theorem lastSaved_gid {g : String} {tx : GlobalTxn} (h : lastSaved g cs = some tx) : tx.gid = g := by
  have hmem := List.mem_of_mem_getLast? (Option.mem_def.mpr h)
  simpa using List.of_mem_filter hmem

theorem mem_savedGids {g : String} : g ∈ savedGids cs ↔ (lastSaved g cs).isSome := by
  rw [savedGids, List.mem_insertionSort, List.mem_dedup, List.mem_map, lastSaved, List.getLast?_isSome, ne_eq,
    List.filter_eq_nil_iff]
  simp only [beq_iff_eq, not_forall, not_not, exists_prop]

theorem pairwise_savedGids (cs : List (Access × World)) : (savedGids cs).Pairwise fun a b => asBytes a < asBytes b := by
  have hle : (savedGids cs).Pairwise ByteLe := List.pairwise_insertionSort ByteLe _
  have hne : (savedGids cs).Nodup := (List.perm_insertionSort _ _).nodup_iff.mpr (List.nodup_dedup _)
  exact hle.imp₂ (fun a b hle hne => lt_of_le_of_ne hle fun h => hne (asBytes_injective h)) hne

/-- **The stored transactions** are the last saved records. -/
theorem mem_transactions {tx : GlobalTxn} : tx ∈ transactions cs ↔ lastSaved tx.gid cs = some tx := by
  rw [transactions, List.mem_filterMap]
  constructor
  · rintro ⟨g, -, h⟩
    rwa [lastSaved_gid h]
  · intro h
    exact ⟨tx.gid, mem_savedGids.mpr (h ▸ rfl), h⟩

/-- **Each gid once**, in the order of the gids. -/
theorem pairwise_transactions (cs : List (Access × World)) :
    (transactions cs).Pairwise fun a b => asBytes a.gid < asBytes b.gid := by
  refine (pairwise_savedGids cs).filterMap _ fun g g' hlt tx htx tx' htx' => ?_
  rwa [lastSaved_gid htx, lastSaved_gid htx']

theorem nodup_transactions (cs : List (Access × World)) : (transactions cs).Nodup :=
  (pairwise_transactions cs).imp fun hlt heq => by
    rw [heq] at hlt
    exact lt_irrefl _ hlt

end Transactions

/-! ## Listing them -/

section List

variable [SerdeJson] {cs : List (Access × World)}

/-- The keys that a scan for transactions finds. -/
theorem scanned_keys (hcs : ∀ c ∈ cs, c.2.Reliable) :
    ((sortedKeys (accessAll ∅ cs)).filter fun k => (asBytes "gid:").isPrefixOf k) = (savedGids cs).map txnKey := by
  apply filter_sortedKeys_eq
  · rw [List.pairwise_map]
    refine (pairwise_savedGids cs).imp fun {g g'} hlt => ?_
    rw [txnKey, txnKey, asBytes_append, asBytes_append]
    exact List.append_left_lt hlt
  · intro k
    rw [List.mem_map]
    constructor
    · rintro ⟨g, hg, rfl⟩
      refine ⟨?_, isPrefixOf_txnKey g⟩
      rw [lookup_saved hcs, Option.isSome_map]
      exact mem_savedGids.mp hg
    · rintro ⟨hk, hpre⟩
      obtain ⟨v, hv⟩ := Option.isSome_iff_exists.mp hk
      obtain ⟨tx, rfl, -⟩ := Scanned.lookup hcs hpre v hv
      rw [lookup_saved hcs, Option.isSome_map] at hk
      exact ⟨tx.gid, mem_savedGids.mpr hk, rfl⟩

/-- A scan returns the first transactions. -/
theorem scanPrefix_eq (hcs : ∀ c ∈ cs, c.2.Reliable) (n : Nat) :
    scanPrefix (accessAll ∅ cs) (asBytes "gid:") n = ((transactions cs).take n).map toVec := by
  have htake : ∀ l : List String, (∀ g ∈ l, (lastSaved g cs).isSome) → ∀ n : Nat,
      ((l.take n).filterMap fun g => (lastSaved g cs).map toVec) =
        ((l.filterMap fun g => lastSaved g cs).take n).map toVec := by
    intro l
    induction l with
    | nil => simp
    | cons g l ih =>
      intro hl n
      obtain ⟨tx, htx⟩ := Option.isSome_iff_exists.mp (hl g List.mem_cons_self)
      cases n with
      | zero => rfl
      | succ n => simp [htx, ih (fun g hg => hl g (List.mem_cons_of_mem _ hg)) n]
  rw [scanPrefix, scan, scanned_keys hcs, ← List.map_take, List.filterMap_map, transactions]
  have hlook : (fun k => (accessAll ∅ cs).lookup k) ∘ txnKey = fun g => (lastSaved g cs).map toVec :=
    funext (lookup_saved hcs)
  rw [hlook]
  exact htake _ (fun g => mem_savedGids.mp) n

/-- **What a list answers**: the scan is cut first, and filtered afterwards. -/
theorem list_eq (hcs : ∀ c ∈ cs, c.2.Reliable) (limit offset : UInt64) (status : Option GlobalStatus) :
    list (accessAll ∅ cs) limit offset status =
      .ok ((((transactions cs).take (offset + limit).toNat).drop offset.toNat).filter (Passes status)) := by
  rw [list, scanPrefix_eq hcs, ← List.map_drop]
  exact decodeMatching_toVec status _

/-- The same when the sum of offset and limit is a machine word. -/
theorem list_window (hcs : ∀ c ∈ cs, c.2.Reliable) {limit offset : UInt64} (h : offset.toNat + limit.toNat < 2 ^ 64)
    (status : Option GlobalStatus) :
    list (accessAll ∅ cs) limit offset status =
      .ok ((window (transactions cs) offset.toNat limit.toNat).filter (Passes status)) := by
  rw [list_eq hcs, UInt64.toNat_add, Nat.mod_eq_of_lt h, drop_take_window]

/-- **The pages enumerate the transactions**: as many pages of one size as cover all that is stored are, one after the
other, the records that pass the filter, each once and in the order of their gids. -/
theorem pages_enumerate (hcs : ∀ c ∈ cs, c.2.Reliable) (n : UInt64) (f : Option GlobalStatus) (K : Nat)
    (hK : (transactions cs).length ≤ K * n.toNat) (hword : K * n.toNat < 2 ^ 64) :
    ∃ pages : Nat → List GlobalTxn,
      (∀ k < K, list (accessAll ∅ cs) n (UInt64.ofNat (k * n.toNat)) f = .ok (pages k)) ∧
      (List.range K).flatMap pages = (transactions cs).filter (Passes f) ∧
      (∀ tx, tx ∈ transactions cs ↔ lastSaved tx.gid cs = some tx) ∧
      (transactions cs).Pairwise fun a b => asBytes a.gid < asBytes b.gid := by
  refine ⟨fun k => (window (transactions cs) (k * n.toNat) n.toNat).filter (Passes f), fun k hk => ?_, ?_,
    fun _ => mem_transactions, pairwise_transactions cs⟩
  · have hle : (k + 1) * n.toNat ≤ K * n.toNat := Nat.mul_le_mul_right _ hk
    rw [Nat.add_mul, Nat.one_mul] at hle
    have hoffset : (UInt64.ofNat (k * n.toNat)).toNat = k * n.toNat :=
      UInt64.toNat_ofNat_of_lt' (show k * n.toNat < 2 ^ 64 by omega)
    have h : (UInt64.ofNat (k * n.toNat)).toNat + n.toNat < 2 ^ 64 := by rw [hoffset]; omega
    rw [list_window hcs h, hoffset]
  · rw [← List.filter_flatMap, flatMap_window hK]

/-! ## A filtered page -/

/-- **Exactly when a filtered page is a page of the filtered list**, and a short page is the last one. -/
theorem filtered_page_iff (hcs : ∀ c ∈ cs, c.2.Reliable) (limit offset : UInt64)
    (hword : offset.toNat + limit.toNat < 2 ^ 64) (s : GlobalStatus) :
    (∃ page, list (accessAll ∅ cs) limit offset (some s) = .ok page ∧
        page = window ((transactions cs).filter fun tx => tx.status == s) offset.toNat limit.toNat ∧
        (page.length < limit.toNat →
          ((transactions cs).filter fun tx => tx.status == s).length ≤ offset.toNat + page.length)) ↔
      limit.toNat = 0 ∨
        (∀ tx ∈ (transactions cs).take offset.toNat, tx.status = s) ∧
          ((∀ tx ∈ window (transactions cs) offset.toNat limit.toNat, tx.status = s) ∨
            ∀ tx ∈ (transactions cs).drop (offset.toNat + limit.toNat), tx.status ≠ s) ∨
        (∀ tx ∈ window (transactions cs) offset.toNat limit.toNat, tx.status ≠ s) ∧
          ((transactions cs).filter fun tx => tx.status == s).length ≤ offset.toNat := by
  have hpasses : Passes (some s) = fun tx => tx.status == s := funext fun tx => Bool.beq_comm
  have hiff := filter_window_eq_iff (nodup_transactions cs) (fun tx => tx.status == s) offset.toNat limit.toNat
  simp only [beq_iff_eq, beq_eq_false_iff_ne] at hiff
  rw [← hiff, list_window hcs hword, hpasses]
  constructor
  · rintro ⟨page, hpage, rfl, -⟩
    exact Except.ok.inj hpage
  · intro h
    refine ⟨_, rfl, h, fun hshort => ?_⟩
    rw [h] at hshort ⊢
    rw [window, List.length_take, List.length_drop] at hshort ⊢
    omega

end List

/-! ## The query of a list -/

/-- `parse::<usize>()` of an optional sign and decimal digits; `none` also when the number is no machine word. -/
def parseUsize (s : String) : Option UInt64 :=
  let digits := match s.toList with
    | '+' :: c :: cs => c :: cs
    | cs => cs
  if digits ≠ [] ∧ digits.all Char.isDigit then
    let n := Nat.ofDigitChars 10 digits 0
    if n < 2 ^ 64 then some (UInt64.ofNat n) else none
  else none

example : parseUsize "+007" = some 7 ∧ parseUsize "+" = none ∧ parseUsize "18446744073709551616" = none := by decide

/-- The parameters of a request. -/
abbrev Query : Type := String → Option String

namespace Query

def limit (q : Query) : UInt64 := ((q "limit").bind parseUsize).getD 50

def offset (q : Query) : UInt64 := ((q "offset").bind parseUsize).getD 0

/-- Any other name is no filter. -/
def status (q : Query) : Option GlobalStatus :=
  match q "status" with
  | some "SUBMITTED" => some .submitted
  | some "ABORTING" => some .aborting
  | some "ABORTED" => some .aborted
  | some "COMMITTING" => some .committing
  | some "COMMITTED" => some .committed
  | _ => none

end Query

/-- Every machine word is parsed from its digits. -/
theorem parseUsize_repr (n : UInt64) : parseUsize n.toNat.repr = some n := by
  have hdigit : ∀ c ∈ Nat.toDigits 10 n.toNat, c.isDigit = true :=
    fun c hc => Nat.isDigit_of_mem_toDigits (by decide) (by decide) hc
  have hne : Nat.toDigits 10 n.toNat ≠ [] := Nat.toDigits_ne_nil
  have hsign : (match Nat.toDigits 10 n.toNat with
      | '+' :: c :: cs => c :: cs
      | cs => cs) = Nat.toDigits 10 n.toNat := by
    split
    · rename_i heq
      have := hdigit '+' (heq ▸ List.mem_cons_self)
      cases this
    · rfl
  unfold parseUsize
  rw [Nat.toList_repr, hsign]
  simp only [ne_eq, hne, not_false_eq_true, List.all_eq_true, true_and, Nat.ofDigitChars_ten_toDigits]
  rw [if_pos hdigit, if_pos n.toNat_lt, UInt64.ofNat_toNat]

/-- **Any two machine words** can be the limit and the offset of a query. -/
theorem exists_query (limit offset : UInt64) : ∃ q : Query, q.limit = limit ∧ q.offset = offset ∧ q.status = none := by
  refine ⟨fun k => if k = "limit" then some limit.toNat.repr
    else if k = "offset" then some offset.toNat.repr else none, ?_, ?_, ?_⟩
  · simp [Query.limit, parseUsize_repr]
  · simp [Query.offset, parseUsize_repr]
  · simp [Query.status]

section Query

variable [SerdeJson] {cs : List (Access × World)}

/-- What `http_list_tx` answers with: the body of a success, or the error in the body of a failure. -/
def httpListTx (st : Kv) (q : Query) : Except Error (List GlobalTxn) := list st q.limit q.offset q.status

/-- A sum that wraps scans fewer records than are skipped. -/
theorem list_wrapped (hcs : ∀ c ∈ cs, c.2.Reliable) {limit offset : UInt64} (h : 2 ^ 64 ≤ offset.toNat + limit.toNat)
    (status : Option GlobalStatus) : list (accessAll ∅ cs) limit offset status = .ok [] := by
  have hl := limit.toNat_lt
  have ho := offset.toNat_lt
  have hlt : (offset + limit).toNat < offset.toNat := by
    rw [UInt64.toNat_add]
    omega
  rw [list_eq hcs, List.drop_eq_nil_of_le ((List.length_take_le _ _).trans hlt.le)]
  rfl

/-- **Exactly when the sum of offset and limit does no harm.** -/
theorem unfiltered_page_iff (hcs : ∀ c ∈ cs, c.2.Reliable) (q : Query) (hq : q.status = none) :
    ((q.offset + q.limit).toNat = q.offset.toNat + q.limit.toNat ∧
        httpListTx (accessAll ∅ cs) q = .ok (window (transactions cs) q.offset.toNat q.limit.toNat) ↔
      q.offset.toNat + q.limit.toNat < 2 ^ 64) ∧
    (httpListTx (accessAll ∅ cs) q = .ok (window (transactions cs) q.offset.toNat q.limit.toNat) ↔
      q.offset.toNat + q.limit.toNat < 2 ^ 64 ∨ (transactions cs).length ≤ q.offset.toNat) := by
  have hpage (h : q.offset.toNat + q.limit.toNat < 2 ^ 64) :
      httpListTx (accessAll ∅ cs) q = .ok (window (transactions cs) q.offset.toNat q.limit.toNat) := by
    rw [httpListTx, hq, list_window hcs h]
    exact congrArg Except.ok (List.filter_eq_self.mpr fun _ _ => rfl)
  refine ⟨⟨fun ⟨hsum, _⟩ => hsum ▸ (q.offset + q.limit).toNat_lt, fun h => ⟨?_, hpage h⟩⟩, ?_⟩
  · rw [UInt64.toNat_add, Nat.mod_eq_of_lt h]
  · rcases Nat.lt_or_ge (q.offset.toNat + q.limit.toNat) (2 ^ 64) with h | h
    · exact iff_of_true (hpage h) (.inl h)
    · have ho := q.offset.toNat_lt
      rw [httpListTx, list_wrapped hcs h, Except.ok.injEq, eq_comm, window, List.take_eq_nil_iff, List.drop_eq_nil_iff]
      constructor
      · exact fun hnil => .inr (hnil.resolve_left (by omega))
      · exact fun hlen => .inr (hlen.resolve_left (by omega))

end Query

section Example

attribute [local instance] Json.serdeJson

/-- A committed transaction and one that is submitted, whose gid comes first. -/
def twoStatuses : List (Access × World) :=
  [(.save { GlobalTxn.new "b" "saga" [] 1 with status := .committed }, .calm 1),
    (.barrier (.insert ⟨"gid:b", ":", .cancel⟩), .calm 2), (.save (.new "a" "saga" [] 3), .calm 3)]

theorem twoStatuses_reliable : ∀ c ∈ twoStatuses, c.2.Reliable := by simp [twoStatuses, Env.Reliable, Env.calm]

theorem twoStatuses_transactions : transactions twoStatuses =
    [.new "a" "saga" [] 3, { GlobalTxn.new "b" "saga" [] 1 with status := .committed }] := by decide +kernel

/-- Two pages of one record. -/
theorem pages_enumerate_twoStatuses : ∃ pages : Nat → List GlobalTxn,
    (∀ k < 2, list (accessAll ∅ twoStatuses) 1 (UInt64.ofNat (k * 1)) none = .ok (pages k)) ∧
    (List.range 2).flatMap pages = (transactions twoStatuses).filter (Passes none) := by
  obtain ⟨pages, hpages, hall, -⟩ := pages_enumerate twoStatuses_reliable 1 none 2
    (by rw [twoStatuses_transactions]; decide) (by decide)
  exact ⟨pages, hpages, hall⟩

/-- The first page of committed transactions is empty, though there is one: the only record of the page is submitted. -/
theorem committed_page_empty : ¬ ∀ cs : List (Access × World), (∀ c ∈ cs, c.2.Reliable) → ∀ limit offset : UInt64,
    offset.toNat + limit.toNat < 2 ^ 64 → ∀ s : GlobalStatus, ∃ page,
      list (accessAll ∅ cs) limit offset (some s) = .ok page ∧
      page = window ((transactions cs).filter fun tx => tx.status == s) offset.toNat limit.toNat ∧
      (page.length < limit.toNat →
        ((transactions cs).filter fun tx => tx.status == s).length ≤ offset.toNat + page.length) := by
  intro h
  obtain ⟨page, hpage, heq, -⟩ := h twoStatuses twoStatuses_reliable 1 0 (by decide) .committed
  rw [list_window twoStatuses_reliable (by decide), Except.ok.injEq, heq, twoStatuses_transactions] at hpage
  revert hpage
  decide +kernel

/-- A page that reaches to the end of the store. -/
theorem filtered_page_twoStatuses : ∃ page, list (accessAll ∅ twoStatuses) 2 0 (some .committed) = .ok page ∧
    page = window ((transactions twoStatuses).filter fun tx => tx.status == .committed) 0 2 := by
  obtain ⟨page, hpage, heq, -⟩ := (filtered_page_iff twoStatuses_reliable 2 0 (by decide) .committed).mpr
    (.inr (.inl ⟨nofun, .inr (by rw [twoStatuses_transactions]; decide +kernel)⟩))
  exact ⟨page, hpage, heq⟩

/-- The query `?offset=1&limit=18446744073709551615`. -/
def everythingAfterTheFirst : Query := fun k =>
  if k = "offset" then some "1" else if k = "limit" then some "18446744073709551615" else none

/-- The sum is zero, and so the page is empty, though there is a second transaction. -/
theorem rest_empty : ¬ ∀ cs : List (Access × World), (∀ c ∈ cs, c.2.Reliable) → ∀ q : Query, q.status = none →
    (q.offset + q.limit).toNat = q.offset.toNat + q.limit.toNat ∧
      httpListTx (accessAll ∅ cs) q = .ok (window (transactions cs) q.offset.toNat q.limit.toNat) := by
  intro h
  obtain ⟨-, hpage⟩ := h twoStatuses twoStatuses_reliable everythingAfterTheFirst (by decide +kernel)
  rw [httpListTx, list_wrapped twoStatuses_reliable (by decide +kernel), Except.ok.injEq,
    twoStatuses_transactions] at hpage
  revert hpage
  decide +kernel

/-- Without parameters the page is the first fifty. -/
theorem unfiltered_page_default :
    httpListTx (accessAll ∅ twoStatuses) (fun _ => none) = .ok (window (transactions twoStatuses) 0 50) :=
  ((unfiltered_page_iff twoStatuses_reliable (fun _ => none) rfl).1.mpr (by decide)).2

end Example

end Seata
