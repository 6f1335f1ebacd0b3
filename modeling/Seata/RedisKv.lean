import Seata.Storage
import Seata.Async.Pages
import Mathlib.Data.Finset.Card

/-!
# The Redis backend

`RedisKv::scan_prefix` asks for batches of keys with `SCAN` until the cursor is zero, and for their values with `MGET`
in chunks of 256 keys. What a pipeline answers is the list of the replies of its commands, here of a single one, so the
values of a chunk are taken for one value that has a byte for each of them (`fromPipeline`). The limit is tested after a
value has been pushed, and a chunk that times out counts as empty.

- `scanPrefix_pos`, `scanPrefix_zero`: what a scan returns, from what its chunks decode to;
- `redis_scan_iff`: exactly when these are the values of as many different keys as there are, up to the limit.
-/

namespace Seata

open Async

namespace RedisKv

/-- How the `MGET` of a chunk ends. -/
inductive MGet where
  | answered
  | timedOut
  | failed
  deriving DecidableEq, Repr

inductive RedisErr where
  | scan
  | mget
  | decode
  deriving DecidableEq, Repr

/-- A `SCAN` that fails, or its next cursor and its keys, and how the `MGET`s of their chunks end. -/
inductive Reply where
  | failed
  | batch (next : UInt64) (keys : List Bytes) (mget : Nat → MGet)

def Reply.keys : Reply → List Bytes
  | .failed => []
  | .batch _ keys _ => keys

/-! ## Decoding -/

/-- The keys of a batch are read as `String`s. -/
def isUtf8 (key : Bytes) : Bool := (ByteArray.mk key.toArray).validateUTF8

/-- One more decimal digit of a `u8`. -/
def pushDigit (n : Nat) (c : UInt8) : Option Nat :=
  if 48 ≤ c ∧ c ≤ 57 ∧ 10 * n + (c.toNat - 48) ≤ 255 then some (10 * n + (c.toNat - 48)) else none

/-- `u8::from_str`: decimal digits, and perhaps a plus before them. -/
def parseU8 (value : Bytes) : Option UInt8 :=
  let digits := if value.head? = some 43 then value.tail else value
  if digits.isEmpty then none else (digits.foldlM pushDigit 0).map Nat.toUInt8

example : [asBytes "7", asBytes "+007", asBytes "256", asBytes "-1"].map parseU8 = [some 7, some 7, none, none] := by
  decide +kernel

/-- A list of values that is taken for one value: each of them is a number, and gives a byte. -/
def decode (values : List (Option Bytes)) : Except RedisErr Bytes :=
  match values.mapM fun v => v.bind parseU8 with
  | some value => .ok value
  | none => .error .decode

/-- What the pipeline is decoded to, when its only command has answered these values. -/
def fromPipeline (values : List (Option Bytes)) : Except RedisErr (List (Option Bytes)) := do
  return [some (← decode values)]

/-! ## The loops -/

section Loops

variable (look : Bytes → Option Bytes) (limit : Nat)

/-- The innermost loop: whether it returns, and what has been pushed. -/
def pushAll : List Bytes → List Bytes → Bool × List Bytes
  | [], out => (false, out)
  | v :: vs, out =>
    let out := out ++ [v]
    if limit ≤ out.length then (true, out) else pushAll vs out

/-- The loop over the chunks, from the `n`-th on. -/
def getChunks (mget : Nat → MGet) : List (List Bytes) → Nat → List Bytes → Except RedisErr (Bool × List Bytes)
  | [], _, out => .ok (false, out)
  | chunk :: rest, n, out => do
    let values ← match mget n with
      | .answered => fromPipeline (chunk.map look)
      | .timedOut => .ok []
      | .failed => .error .mget
    match pushAll limit (values.filterMap id) out with
    | (true, out) => return (true, out)
    | (false, out) => getChunks mget rest (n + 1) out

/-- The loop over the replies; `none` when they do not reach its end. -/
def scanLoop : List Reply → List Bytes → Option (Except RedisErr (List Bytes))
  | [], _ => none
  | .failed :: _, _ => some (.error .scan)
  | .batch next keys mget :: rest, out =>
    if !keys.all isUtf8 then some (.error .scan)
    else if keys.isEmpty then
      if next = 0 then some (.ok out) else scanLoop rest out
    else
      match getChunks look limit mget (chunks 256 keys) 0 out with
      | .error e => some (.error e)
      | .ok (true, out) => some (.ok out)
      | .ok (false, out) => if next = 0 ∨ limit ≤ out.length then some (.ok out) else scanLoop rest out

def scanPrefix (replies : List Reply) : Option (Except RedisErr (List Bytes)) := scanLoop look limit replies []

end Loops

/-! ## What the chunks decode to -/

section Decoded

variable (look : Bytes → Option Bytes)

/-- What the chunks decode to, numbered from `n` on: a chunk that times out to nothing, any other one to a value or to
an error. -/
def decodedFrom (mget : Nat → MGet) (cs : List (List Bytes)) (n : Nat) : List (Except RedisErr Bytes) :=
  (cs.zipIdx n).filterMap fun c => match mget c.2 with
    | .answered => some (decode (c.1.map look))
    | .timedOut => none
    | .failed => some (.error .mget)

def Reply.decoded : Reply → List (Except RedisErr Bytes)
  | .failed => [.error .scan]
  | .batch _ keys mget => if keys.all isUtf8 then decodedFrom look mget (chunks 256 keys) 0 else [.error .scan]

/-- What the chunks of all replies decode to. -/
def decoded (replies : List Reply) : List (Except RedisErr Bytes) := replies.flatMap (Reply.decoded look)

/-- What the chunks of the first reply with a key decode to. -/
def firstDecoded (replies : List Reply) : List (Except RedisErr Bytes) :=
  match replies.find? fun r => !r.keys.isEmpty with
  | some r => r.decoded look
  | none => []

end Decoded

/-- Pushing values up to the limit: whether the limit is reached, and what has been pushed. -/
def collect (limit : Nat) : List (Except RedisErr Bytes) → List Bytes → Except RedisErr (Bool × List Bytes)
  | [], out => .ok (false, out)
  | .error e :: _, _ => .error e
  | .ok v :: xs, out => if limit ≤ (out ++ [v]).length then .ok (true, out ++ [v]) else collect limit xs (out ++ [v])

section Lemmas

variable {look : Bytes → Option Bytes} {limit : Nat} {mget : Nat → MGet}

theorem decodedFrom_cons (c : List Bytes) (cs : List (List Bytes)) (n : Nat) :
    decodedFrom look mget (c :: cs) n = (match mget n with
      | .answered => [decode (c.map look)]
      | .timedOut => []
      | .failed => [.error .mget]) ++ decodedFrom look mget cs (n + 1) := by
  rw [decodedFrom, List.zipIdx_cons, List.filterMap_cons]
  cases h : mget n <;> simp [decodedFrom]

/-- The loop over the chunks pushes what they decode to. -/
theorem getChunks_eq : ∀ {cs : List (List Bytes)} {n : Nat} {out : List Bytes},
    getChunks look limit mget cs n out = collect limit (decodedFrom look mget cs n) out
  | [], _, _ => rfl
  | c :: cs, n, out => by
    rw [getChunks, decodedFrom_cons]
    cases mget n with
    | timedOut => exact getChunks_eq
    | failed => rfl
    | answered =>
      simp only [fromPipeline]
      cases decode (c.map look) with
      | error e => rfl
      | ok v =>
        show (match pushAll limit [v] out with
          | (true, out) => Except.ok (true, out)
          | (false, out) => getChunks look limit mget cs (n + 1) out) = _
        rw [List.singleton_append, pushAll, collect]
        by_cases hle : limit ≤ (out ++ [v]).length
        · simp only [hle, ↓reduceIte]
        · simp only [hle, ↓reduceIte, pushAll]
          exact getChunks_eq

/-- Values that are pushed in two portions. -/
theorem collect_append (ys : List (Except RedisErr Bytes)) : ∀ {xs : List (Except RedisErr Bytes)} {out : List Bytes},
    collect limit (xs ++ ys) out = match collect limit xs out with
      | .error e => .error e
      | .ok (true, out) => .ok (true, out)
      | .ok (false, out) => collect limit ys out
  | [], _ => rfl
  | .error _ :: _, _ => rfl
  | .ok v :: xs, out => by
    rw [List.cons_append, collect, collect]
    split
    · rfl
    · exact collect_append ys

/-- While the limit is not reached, there is room left. -/
theorem room_of_collect : ∀ {xs : List (Except RedisErr Bytes)} {out out' : List Bytes}, out.length < limit →
    collect limit xs out = .ok (false, out') → out'.length < limit
  | [], _, _, hout, h => by
    cases h
    exact hout
  | .error _ :: _, _, _, _, h => by cases h
  | .ok v :: xs, out, out', _, h => by
    rw [collect] at h
    split at h
    · cases h
    · exact room_of_collect (Nat.not_le.mp ‹_›) h

theorem mapM_id_eq_ok : ∀ {xs : List (Except RedisErr Bytes)} {vs : List Bytes},
    xs.mapM id = .ok vs ↔ xs = vs.map .ok
  | [], vs => by
    cases vs with
    | nil => exact iff_of_true rfl rfl
    | cons v vs => exact iff_of_false nofun nofun
  | .error e :: xs, vs => by
    rw [List.mapM_cons]
    cases vs <;> exact iff_of_false nofun nofun
  | .ok v :: xs, vs => by
    have ih (vs : List Bytes) : xs.mapM id = .ok vs ↔ xs = vs.map .ok := mapM_id_eq_ok
    rw [List.mapM_cons]
    cases hrest : xs.mapM id with
    | error e =>
      refine iff_of_false nofun fun h => ?_
      cases vs with
      | nil => cases h
      | cons v' vs => cases hrest.symm.trans ((ih vs).mpr (List.cons.inj h).2)
    | ok ws =>
      rw [(ih ws).mp hrest, ← List.map_cons]
      show Except.ok (v :: ws) = _ ↔ _
      rw [Except.ok.injEq, List.map_inj_right fun _ _ h => Except.ok.inj h]

/-- With room left, what is pushed are the first values, if they are values. -/
theorem collect_eq : ∀ {xs : List (Except RedisErr Bytes)} {out : List Bytes}, out.length < limit →
    (collect limit xs out).map Prod.snd = ((xs.take (limit - out.length)).mapM id).map (out ++ ·)
  | [], out, _ => by
    rw [List.take_nil]
    exact congrArg Except.ok (List.append_nil out).symm
  | .error e :: xs, out, hout => by
    obtain ⟨n, hn⟩ := Nat.exists_eq_add_of_lt hout
    have hn : limit - out.length = n + 1 := by omega
    rw [hn]
    rfl
  | .ok v :: xs, out, hout => by
    obtain ⟨n, hn⟩ := Nat.exists_eq_add_of_lt hout
    have hlen : (out ++ [v]).length = out.length + 1 := List.length_append
    have hsub : limit - out.length = n + 1 := by omega
    rw [hsub, List.take_succ_cons, List.mapM_cons, collect]
    split
    · obtain rfl : n = 0 := by omega
      rfl
    · have hrest : limit - (out ++ [v]).length = n := by omega
      rw [collect_eq (Nat.not_le.mp ‹_›), hrest]
      cases (xs.take n).mapM id with
      | error e => rfl
      | ok vs => exact congrArg Except.ok (List.append_assoc out [v] vs)

/-- Without a limit to wait for, it is the first one. -/
theorem collect_zero (xs : List (Except RedisErr Bytes)) :
    (collect 0 xs []).map Prod.snd = (xs.take 1).mapM id := by
  cases xs with
  | nil => rfl
  | cons x xs => cases x <;> rfl

/-! ## The replies of an unchanging store -/

/-- The cursor is zero with the last reply, and only then; every `SCAN` answers, and every `MGET` answers or times
out. -/
inductive Ends : List Reply → Prop
  | last {keys : List Bytes} {mget : Nat → MGet} (hm : ∀ n, mget n ≠ .failed) : Ends [.batch 0 keys mget]
  | next {next : UInt64} {keys : List Bytes} {mget : Nat → MGet} {rest : List Reply} (hn : next ≠ 0)
      (hm : ∀ n, mget n ≠ .failed) (h : Ends rest) : Ends (.batch next keys mget :: rest)

/-- **What the loop returns**: what its chunks decode to, up to the limit. The induction is on the replies, and less
than the limit has been pushed. -/
theorem scanLoop_eq {replies : List Reply} (h : Ends replies) : ∀ {out : List Bytes}, out.length < limit →
    scanLoop look limit replies out = some ((collect limit (decoded look replies) out).map Prod.snd) := by
  induction h with
  | @last keys mget _ =>
    intro out _
    rw [decoded, List.flatMap_singleton, Reply.decoded, scanLoop]
    cases keys.all isUtf8 with
    | false => rfl
    | true =>
      cases keys with
      | nil => rfl
      | cons k keys =>
        simp only [Bool.not_true, List.isEmpty_cons, Bool.false_eq_true, ↓reduceIte, true_or, getChunks_eq]
        rcases collect limit (decodedFrom look mget (chunks 256 (k :: keys)) 0) out with _ | ⟨_ | _, _⟩ <;> rfl
  | @next cursor keys mget rest hn _ _ ih =>
    intro out hout
    rw [decoded, List.flatMap_cons, collect_append, Reply.decoded, scanLoop]
    cases keys.all isUtf8 with
    | false => rfl
    | true =>
      cases keys with
      | nil =>
        simp only [Bool.not_true, List.isEmpty_nil, Bool.false_eq_true, ↓reduceIte, hn]
        exact ih hout
      | cons k keys =>
        simp only [Bool.not_true, List.isEmpty_cons, Bool.false_eq_true, ↓reduceIte, hn, false_or, getChunks_eq]
        cases hc : collect limit (decodedFrom look mget (chunks 256 (k :: keys)) 0) out with
        | error e => rfl
        | ok r =>
          obtain ⟨done, out'⟩ := r
          cases done with
          | true => rfl
          | false =>
            have hroom := room_of_collect hout hc
            simp only [Nat.not_le.mpr hroom, ↓reduceIte]
            exact ih hroom

/-- With no limit at all, the loop ends with the first batch that has a key. -/
theorem scanLoop_zero {replies : List Reply} (h : Ends replies) :
    scanLoop look 0 replies [] = some ((collect 0 (firstDecoded look replies) []).map Prod.snd) := by
  have hfirst {next : UInt64} {k : Bytes} {keys : List Bytes} {mget : Nat → MGet} {rest : List Reply} :
      scanLoop look 0 (.batch next (k :: keys) mget :: rest) [] =
        some ((collect 0 ((Reply.batch next (k :: keys) mget).decoded look) []).map Prod.snd) := by
    rw [scanLoop, Reply.decoded]
    cases (k :: keys).all isUtf8 with
    | false => rfl
    | true =>
      simp only [Bool.not_true, List.isEmpty_cons, Bool.false_eq_true, ↓reduceIte, getChunks_eq, Nat.zero_le, or_true]
      rcases collect 0 (decodedFrom look mget (chunks 256 (k :: keys)) 0) [] with _ | ⟨_ | _, _⟩ <;> rfl
  induction h with
  | @last keys mget _ =>
    cases keys with
    | nil => rfl
    | cons k keys => exact hfirst
  | @next cursor keys mget rest hn _ _ ih =>
    cases keys with
    | nil =>
      rw [scanLoop]
      simp only [List.all_nil, Bool.not_true, List.isEmpty_nil, Bool.false_eq_true, ↓reduceIte, hn]
      exact ih
    | cons k keys => exact hfirst

/-- **What a scan returns**: the first values that its chunks decode to, or the error that comes before. -/
theorem scanPrefix_pos {replies : List Reply} (h : Ends replies) (hlimit : 0 < limit) :
    scanPrefix look limit replies = some (((decoded look replies).take limit).mapM id) := by
  rw [scanPrefix, scanLoop_eq h hlimit, collect_eq hlimit, List.length_nil, Nat.sub_zero]
  cases ((decoded look replies).take limit).mapM id <;> rfl

theorem scanPrefix_zero {replies : List Reply} (h : Ends replies) :
    scanPrefix look 0 replies = some (((firstDecoded look replies).take 1).mapM id) := by
  rw [scanPrefix, scanLoop_zero h, collect_zero]

end Lemmas

/-! ## When every value is that of another key -/

/-- The values of the keys of an unchanging store. -/
def valueOf (K : Finset Bytes) (val : Bytes → Bytes) (k : Bytes) : Option Bytes := if k ∈ K then some (val k) else none

/-- The replies for a store whose keys with the prefix are `K`: each comes at least once, and perhaps more than once. -/
structure Allowed (K : Finset Bytes) (replies : List Reply) : Prop where
  ends : Ends replies
  sound : ∀ r ∈ replies, ∀ k ∈ r.keys, k ∈ K
  complete : ∀ k ∈ K, ∃ r ∈ replies, k ∈ r.keys

/-- The values are those of `n` different keys. -/
def HoldsValues (K : Finset Bytes) (val : Bytes → Bytes) (n : Nat) (out : List Bytes) : Prop :=
  ∃ ks : List Bytes, ks.Nodup ∧ (∀ k ∈ ks, k ∈ K) ∧ ks.length = n ∧ out.Perm (ks.map val)

/-- What is returned holds the values of as many different keys as there are, up to the limit. -/
def ScanCorrect (K : Finset Bytes) (val : Bytes → Bytes) (limit : Nat) (replies : List Reply) : Prop :=
  ∀ out, scanPrefix (valueOf K val) limit replies = some (.ok out) → HoldsValues K val (min limit K.card) out

/-- A key of the batch is no string, or a chunk of it is answered. -/
def Reply.Answered : Reply → Prop
  | .failed => False
  | .batch _ keys mget => keys.all isUtf8 = false ∨ ∃ n < (chunks 256 keys).length, mget n = .answered

section Correct

variable {K : Finset Bytes} {val : Bytes → Bytes} {limit : Nat} {replies : List Reply}

theorem HoldsValues.le_card {n : Nat} {out : List Bytes} (h : HoldsValues K val n out) : n ≤ K.card := by
  obtain ⟨ks, hnodup, hmem, rfl, -⟩ := h
  rw [← Finset.length_toList]
  exact (hnodup.subperm fun k hk => Finset.mem_toList.mpr (hmem k hk)).length_le

/-- The keys with a value. -/
theorem card_filter_eq (K : Finset Bytes) (val : Bytes → Bytes) (v : Bytes) :
    (K.filter fun k => val k = v).card = K.toList.countP fun k => val k = v := by
  rw [← Multiset.coe_countP, Finset.coe_toList, Multiset.countP_eq_card_filter]
  rfl

theorem count_map_val (ks : List Bytes) (val : Bytes → Bytes) (v : Bytes) :
    (ks.map val).count v = ks.countP fun k => val k = v := by
  rw [List.count_eq_countP, List.countP_map]
  exact List.countP_congr fun k _ => by simp

/-- Values are those of different keys when there are as many, and none comes more often than keys have it. -/
theorem holdsValues_iff {n : Nat} {out : List Bytes} : HoldsValues K val n out ↔
    out.length = n ∧ ∀ v, out.count v ≤ (K.filter fun k => val k = v).card := by
  constructor
  · rintro ⟨ks, hnodup, hmem, rfl, hperm⟩
    refine ⟨by rw [hperm.length_eq, List.length_map], fun v => ?_⟩
    have hsub : ks.Subperm K.toList := hnodup.subperm fun k hk => Finset.mem_toList.mpr (hmem k hk)
    rw [hperm.count_eq, count_map_val, card_filter_eq]
    exact hsub.countP_le _
  · rintro ⟨rfl, hle⟩
    have hsub : out.Subperm (K.toList.map val) := by
      refine List.subperm_ext_iff.mpr fun v _ => ?_
      rw [count_map_val, ← card_filter_eq]
      exact hle v
    obtain ⟨l, hl, hsub⟩ := hsub
    obtain ⟨ks, hks, rfl⟩ := List.sublist_map_iff.mp hsub
    refine ⟨ks, hks.nodup K.nodup_toList, fun k hk => Finset.mem_toList.mp (hks.subset hk), ?_, hl.symm⟩
    rw [← List.length_map val, hl.length_eq]

/-- Answers are values, or there is an error among them. -/
theorem values_or_error (xs : List (Except RedisErr Bytes)) :
    (∃ vs : List Bytes, xs = vs.map .ok) ∨ ∃ e, .error e ∈ xs := by
  induction xs with
  | nil => exact .inl ⟨[], rfl⟩
  | cons x xs ih =>
    cases x with
    | error e => exact .inr ⟨e, List.mem_cons_self⟩
    | ok v =>
      rcases ih with ⟨vs, rfl⟩ | ⟨e, he⟩
      · exact .inl ⟨v :: vs, rfl⟩
      · exact .inr ⟨e, List.mem_cons_of_mem _ he⟩

theorem error_notMem_map_ok {vs : List Bytes} {e : RedisErr} : Except.error e ∉ vs.map Except.ok := by
  rw [List.mem_map]
  rintro ⟨v, -, hv⟩
  cases hv

/-- With no limit at all: the first batch with a key does not begin with a value. -/
theorem scanCorrect_zero (h : Ends replies) : ScanCorrect K val 0 replies ↔
    ∀ v, (firstDecoded (valueOf K val) replies).head? ≠ some (.ok v) := by
  rw [ScanCorrect, scanPrefix_zero h, Nat.zero_min]
  simp only [Option.some.injEq, mapM_id_eq_ok]
  cases firstDecoded (valueOf K val) replies with
  | nil =>
    refine iff_of_true (fun out hout => ?_) nofun
    obtain rfl : [] = out := by simpa using hout.symm
    exact ⟨[], List.nodup_nil, nofun, rfl, .nil⟩
  | cons x xs =>
    constructor
    · rintro hc v hx
      obtain rfl : x = .ok v := Option.some.inj hx
      obtain ⟨ks, -, -, hlen, hperm⟩ := hc [v] rfl
      rw [List.length_eq_zero_iff.mp hlen] at hperm
      cases hperm.length_eq
    · rintro hno out hout
      cases out with
      | nil => cases hout
      | cons v vs => exact absurd (congrArg some (List.cons.inj hout).1) (hno v)

/-- With a limit: there is an error before it; or there are enough values, and before it none comes more often than keys
have it. -/
theorem scanCorrect_pos (h : Ends replies) (hlimit : 0 < limit) : ScanCorrect K val limit replies ↔
    (∃ e, .error e ∈ (decoded (valueOf K val) replies).take limit) ∨
      min limit K.card ≤ (decoded (valueOf K val) replies).length ∧
        ∀ v, ((decoded (valueOf K val) replies).take limit).count (.ok v) ≤ (K.filter fun k => val k = v).card := by
  rw [ScanCorrect, scanPrefix_pos h hlimit]
  simp only [Option.some.injEq, mapM_id_eq_ok]
  have hlen := List.length_take (i := limit) (l := decoded (valueOf K val) replies)
  generalize hxs : (decoded (valueOf K val) replies).take limit = xs at hlen ⊢
  rcases values_or_error xs with ⟨vs, rfl⟩ | ⟨e, he⟩
  · have hcount (v : Bytes) : (vs.map Except.ok : List (Except RedisErr Bytes)).count (.ok v) = vs.count v :=
      List.count_map_of_injective vs Except.ok (fun _ _ h => Except.ok.inj h) v
    rw [List.length_map] at hlen
    rw [or_iff_right fun ⟨e, he⟩ => error_notMem_map_ok he]
    simp only [hcount]
    constructor
    · intro hc
      obtain ⟨hvs, hle⟩ := holdsValues_iff.mp (hc vs rfl)
      exact ⟨by omega, hle⟩
    · rintro ⟨henough, hle⟩ out hout
      obtain rfl : vs = out := (List.map_inj_right fun _ _ h => Except.ok.inj h).mp hout
      have hcard := (holdsValues_iff.mpr ⟨rfl, hle⟩).le_card
      exact holdsValues_iff.mpr ⟨by omega, hle⟩
  · refine iff_of_true (fun out hout => ?_) (.inl ⟨e, he⟩)
    rw [hout] at he
    exact absurd he error_notMem_map_ok

/-! ### Values that are no numbers -/

/-- A chunk with a value that is no number does not decode. -/
theorem decode_error {c : List Bytes} (hc : c ≠ []) (hval : ∀ k ∈ K, parseU8 (val k) = none) :
    decode (c.map (valueOf K val)) = .error .decode := by
  obtain ⟨k, rest, rfl⟩ := List.exists_cons_of_ne_nil hc
  have hk : (valueOf K val k).bind parseU8 = none := by
    rw [valueOf]
    split
    · exact hval k ‹_›
    · rfl
  rw [decode, List.map_cons, List.mapM_cons, hk]
  rfl

theorem mem_decoded_of_first {look : Bytes → Option Bytes} {x : Except RedisErr Bytes}
    (hx : x ∈ firstDecoded look replies) : x ∈ decoded look replies := by
  rw [firstDecoded] at hx
  split at hx
  · exact List.mem_flatMap.mpr ⟨_, List.mem_of_find?_eq_some ‹_›, hx⟩
  · cases hx

/-- Then all that a scan gets are errors. -/
theorem error_of_mem_decoded (hval : ∀ k ∈ K, parseU8 (val k) = none) {x : Except RedisErr Bytes}
    (hx : x ∈ decoded (valueOf K val) replies) : ∃ e, x = .error e := by
  rw [decoded, List.mem_flatMap] at hx
  obtain ⟨r, -, hx⟩ := hx
  cases r with
  | failed => exact ⟨_, List.mem_singleton.mp hx⟩
  | batch next keys mget =>
    rw [Reply.decoded] at hx
    split at hx
    · rw [decodedFrom, List.mem_filterMap] at hx
      obtain ⟨⟨c, n⟩, hc, hx⟩ := hx
      have hne : c ≠ [] := ne_nil_of_mem_chunks (by decide) (List.fst_mem_of_mem_zipIdx hc)
      dsimp only at hx
      split at hx
      · rw [decode_error hne hval] at hx
        exact ⟨_, (Option.some.inj hx).symm⟩
      · cases hx
      · exact ⟨_, (Option.some.inj hx).symm⟩
    · exact ⟨_, List.mem_singleton.mp hx⟩

/-- It gets none of them when nothing is answered. -/
theorem decoded_eq_nil_iff (h : Ends replies) (look : Bytes → Option Bytes) :
    decoded look replies = [] ↔ ¬ ∃ r ∈ replies, r.Answered := by
  have hbatch {next : UInt64} {keys : List Bytes} {mget : Nat → MGet} (hm : ∀ n, mget n ≠ .failed) :
      (Reply.batch next keys mget).decoded look = [] ↔ ¬ (Reply.batch next keys mget).Answered := by
    rw [Reply.decoded, Reply.Answered]
    cases keys.all isUtf8 with
    | false => exact iff_of_false nofun fun hno => hno (.inl rfl)
    | true =>
      rw [if_pos rfl, decodedFrom, List.filterMap_eq_nil_iff]
      constructor
      · rintro hall (hutf8 | ⟨n, hn, hans⟩)
        · cases hutf8
        · have hmem := hall (_, n) (List.mk_mem_zipIdx_iff_getElem?.mpr (List.getElem?_eq_getElem hn))
          simp only [hans] at hmem
          cases hmem
      · rintro hno ⟨c, n⟩ hc
        obtain ⟨hn, -⟩ := List.getElem?_eq_some_iff.mp (List.mk_mem_zipIdx_iff_getElem?.mp hc)
        cases hans : mget n with
        | answered => exact absurd (.inr ⟨n, hn, hans⟩) hno
        | timedOut => rfl
        | failed => exact absurd hans (hm n)
  rw [decoded, List.flatMap_eq_nil_iff]
  simp only [not_exists, not_and]
  induction h with
  | last hm => simp only [List.mem_singleton, forall_eq, hbatch hm]
  | next hn hm _ ih => simp only [List.forall_mem_cons, hbatch hm, ih]

/-- **Where no value is a number**, every answered chunk is an error: a scan is complete unless it drops keys because
all of their chunks time out. -/
theorem scanCorrect_records (h : Ends replies) (hval : ∀ k ∈ K, parseU8 (val k) = none) :
    ScanCorrect K val limit replies ↔ limit = 0 ∨ K = ∅ ∨ ∃ r ∈ replies, r.Answered := by
  have herror {x : Except RedisErr Bytes} (hx : x ∈ decoded (valueOf K val) replies) : ∃ e, x = .error e :=
    error_of_mem_decoded hval hx
  rcases Nat.eq_zero_or_pos limit with rfl | hlimit
  · refine iff_of_true ((scanCorrect_zero h).mpr fun v hv => ?_) (.inl rfl)
    obtain ⟨e, he⟩ := herror (mem_decoded_of_first (List.mem_of_head? hv))
    cases he
  · rw [scanCorrect_pos h hlimit, or_iff_right (Nat.ne_of_gt hlimit)]
    cases hd : decoded (valueOf K val) replies with
    | nil =>
      rw [or_iff_left ((decoded_eq_nil_iff h _).mp hd), List.take_nil, List.length_nil]
      constructor
      · rintro (⟨e, he⟩ | ⟨hle, -⟩)
        · cases he
        · exact Finset.card_eq_zero.mp (by omega)
      · rintro rfl
        exact .inr ⟨Nat.le_of_eq (Nat.min_zero _), fun v => Nat.zero_le _⟩
    | cons x xs =>
      have hans : ∃ r ∈ replies, r.Answered := by
        by_contra hno
        cases hd.symm.trans ((decoded_eq_nil_iff h _).mpr hno)
      obtain ⟨e, rfl⟩ := herror (hd ▸ List.mem_cons_self)
      obtain ⟨n, rfl⟩ := Nat.exists_eq_succ_of_ne_zero (Nat.ne_of_gt hlimit)
      exact iff_of_true (.inl ⟨e, List.mem_cons_self⟩) (.inr hans)

end Correct

/-- **A scan that succeeds returns each match once and drops none** exactly when, with no limit at all, the first batch
with a key does not begin with a chunk that decodes to a value; and with a limit, one of the chunks before it does not
decode, or enough of them do, and to the values of different keys. Where no value is a number, no chunk decodes, and
that is: no limit at all, no keys, or a chunk that is answered. -/
theorem redis_scan_iff {K : Finset Bytes} {replies : List Reply} (h : Allowed K replies) (val : Bytes → Bytes)
    (limit : Nat) :
    (ScanCorrect K val limit replies ↔
        (limit = 0 → ∀ v, (firstDecoded (valueOf K val) replies).head? ≠ some (.ok v)) ∧
          (0 < limit → (∃ e, .error e ∈ (decoded (valueOf K val) replies).take limit) ∨
            min limit K.card ≤ (decoded (valueOf K val) replies).length ∧
              ∀ v, ((decoded (valueOf K val) replies).take limit).count (.ok v) ≤
                (K.filter fun k => val k = v).card)) ∧
      ((∀ k ∈ K, parseU8 (val k) = none) →
        (ScanCorrect K val limit replies ↔ limit = 0 ∨ K = ∅ ∨ ∃ r ∈ replies, r.Answered)) := by
  refine ⟨?_, scanCorrect_records h.ends⟩
  rcases Nat.eq_zero_or_pos limit with rfl | hlimit
  · rw [scanCorrect_zero h.ends]
    exact ⟨fun hno => ⟨fun _ => hno, nofun⟩, fun hc => hc.1 rfl⟩
  · rw [scanCorrect_pos h.ends hlimit]
    exact ⟨fun hc => ⟨fun h0 => absurd h0 (Nat.ne_of_gt hlimit), fun _ => hc⟩, fun hc => hc.2 hlimit⟩

/-- The values of the only batch are not answered in time. -/
def timesOut : List Reply := [.batch 0 [asBytes "a"] fun _ => .timedOut]

theorem allowed_timesOut : Allowed {asBytes "a"} timesOut where
  ends := .last nofun
  sound := by decide
  complete := by decide

/-- A key whose chunk times out is dropped, and the scan succeeds. -/
theorem timeout_drops_key :
    ¬ ∀ (K : Finset Bytes) (replies : List Reply), Allowed K replies → ∀ (val : Bytes → Bytes) (limit : Nat),
    ScanCorrect K val limit replies := by
  intro h
  obtain ⟨ks, -, -, hlen, hperm⟩ := h _ _ allowed_timesOut id 10 [] (by decide +kernel)
  rw [List.nil_perm, List.map_eq_nil_iff] at hperm
  subst hperm
  cases hlen

/-- Two batches with a key each; only the values of the first one are answered. -/
def answersFirst : List Reply := [.batch 5 [asBytes "a"] fun _ => .answered, .batch 0 [asBytes "b"] fun _ => .timedOut]

theorem allowed_answersFirst : Allowed {asBytes "a", asBytes "b"} answersFirst where
  ends := .next (by decide) nofun (.last nofun)
  sound := by decide
  complete := by decide

/-- The value of one key is the number of the byte that is the value of the other one, and that one is returned. -/
theorem redis_scan_answersFirst :
    let val := fun k => if k = asBytes "a" then asBytes "7" else [7]
    scanPrefix (valueOf {asBytes "a", asBytes "b"} val) 1 answersFirst = some (.ok [[7]]) ∧
      ScanCorrect {asBytes "a", asBytes "b"} val 1 answersFirst := by
  intro val
  refine ⟨by decide +kernel, (redis_scan_iff allowed_answersFirst val 1).1.mpr ⟨nofun, fun _ => .inr ⟨?_, fun v => ?_⟩⟩⟩
  · decide +kernel
  · have hd : (decoded (valueOf {asBytes "a", asBytes "b"} val) answersFirst).take 1 = [.ok [7]] := by decide +kernel
    rw [hd, List.count_singleton]
    split
    · rename_i heq
      rw [← Except.ok.inj (eq_of_beq heq)]
      decide +kernel
    · exact Nat.zero_le _

end RedisKv

end Seata
