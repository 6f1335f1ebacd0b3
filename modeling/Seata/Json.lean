import Seata.Serde
import Seata.Storage

/-!
# The JSON texts of records

What `serde_json::to_vec` writes for a record, and a reader of these texts: compact, with the fields in the order of
their declarations. `serdeJson` packs the two with their round trip (`read_write`); it is an encoding on which runs
can be evaluated, while every theorem about the server holds for any encoding with that law. The text of any JSON value
is here too (`writeValue`): the length of a body counts.
-/

namespace Seata

open Serde

namespace Json

/-- Read a fixed text. -/
def expect (text cs : List Char) : Option (List Char) :=
  if text.isPrefixOf cs then some (cs.drop text.length) else none

@[simp] theorem expect_append (text rest : List Char) : expect text (text ++ rest) = some rest := by
  simp [expect]

/-! ## Strings -/

def quote : Char := Char.ofNat 34

def backslash : Char := Char.ofNat 92

/-- The characters with a short escape: quote, backslash, backspace, tab, line feed, form feed, carriage return. -/
def shorts : List (Char × Char) :=
  [(quote, quote), (backslash, backslash), (Char.ofNat 8, 'b'), (Char.ofNat 9, 't'), (Char.ofNat 10, 'n'),
    (Char.ofNat 12, 'f'), (Char.ofNat 13, 'r')]

def hexDigits : List Char := "0123456789abcdef".toList

def escape (c : Char) : List Char :=
  match shorts.lookup c with
  | some e => [backslash, e]
  | none =>
    if c.toNat < 32 then
      [backslash, 'u', '0', '0', hexDigits.getD (c.toNat / 16) '0', hexDigits.getD (c.toNat % 16) '0']
    else [c]

/-- Where the reader of a string stands: between characters, after a backslash, or before the last `left + 1` digits of
a numbered escape. -/
inductive Mode where
  | plain
  | escaped
  | hex (left value : Nat)

/-- The characters up to the closing quote. -/
def readChars : Mode → List Char → Option (List Char × List Char)
  | _, [] => none
  | .plain, c :: cs =>
    if c = quote then some ([], cs)
    else if c = backslash then readChars .escaped cs
    else (readChars .plain cs).map fun r => (c :: r.1, r.2)
  | .escaped, c :: cs =>
    if c = 'u' then readChars (.hex 3 0) cs
    else (shorts.find? fun s => s.2 == c).bind fun s => (readChars .plain cs).map fun r => (s.1 :: r.1, r.2)
  | .hex left value, c :: cs =>
    let value := 16 * value + hexDigits.idxOf c
    match left with
    | 0 => (readChars .plain cs).map fun r => (Char.ofNat value :: r.1, r.2)
    | left + 1 => readChars (.hex left value) cs

theorem hexDigits_idxOf : ∀ n < 16, hexDigits.idxOf (hexDigits.getD n '0') = n := by decide

theorem readChars_short {c e : Char} (h : (c, e) ∈ shorts) (rest : List Char) :
    readChars .plain (backslash :: e :: rest) = (readChars .plain rest).map fun r => (c :: r.1, r.2) := by
  simp only [shorts, List.mem_cons, Prod.mk.injEq, List.not_mem_nil, or_false] at h
  rcases h with ⟨rfl, rfl⟩ | ⟨rfl, rfl⟩ | ⟨rfl, rfl⟩ | ⟨rfl, rfl⟩ | ⟨rfl, rfl⟩ | ⟨rfl, rfl⟩ | ⟨rfl, rfl⟩ <;> rfl

theorem readChars_control {n : Nat} (h : n < 32) (rest : List Char) :
    readChars .plain ([backslash, 'u', '0', '0', hexDigits.getD (n / 16) '0', hexDigits.getD (n % 16) '0'] ++ rest) =
      (readChars .plain rest).map fun r => (Char.ofNat n :: r.1, r.2) := by
  have hv : 16 * hexDigits.idxOf (hexDigits.getD (n / 16) '0') + hexDigits.idxOf (hexDigits.getD (n % 16) '0') = n := by
    rw [hexDigits_idxOf _ (by omega), hexDigits_idxOf _ (by omega)]
    omega
  have hr :
      readChars .plain ([backslash, 'u', '0', '0', hexDigits.getD (n / 16) '0', hexDigits.getD (n % 16) '0'] ++ rest) =
      (readChars .plain rest).map fun r => (Char.ofNat (16 * (16 * 0 + hexDigits.idxOf (hexDigits.getD (n / 16) '0')) +
        hexDigits.idxOf (hexDigits.getD (n % 16) '0')) :: r.1, r.2) := rfl
  rw [hr, Nat.mul_zero, Nat.zero_add, hv]

theorem mem_of_lookup {c e : Char} : ∀ {l : List (Char × Char)}, l.lookup c = some e → (c, e) ∈ l
  | (a, b) :: l, h => by
    by_cases ha : c = a
    · subst ha
      simp only [List.lookup_cons_self, Option.some.injEq] at h
      exact h ▸ List.mem_cons_self
    · rw [List.lookup_cons, beq_false_of_ne ha] at h
      exact List.mem_cons_of_mem _ (mem_of_lookup h)

/-- **One character at a time**: an escape reads back as its character. -/
theorem readChars_escape (c : Char) (rest : List Char) :
    readChars .plain (escape c ++ rest) = (readChars .plain rest).map fun r => (c :: r.1, r.2) := by
  unfold escape
  split
  · rename_i e he
    exact readChars_short (mem_of_lookup he) rest
  · rename_i hc
    have hq : c ≠ quote := by rintro rfl; cases hc
    have hb : c ≠ backslash := by rintro rfl; cases hc
    split
    · rename_i hlt
      rw [readChars_control hlt, Char.ofNat_toNat]
    · simp only [List.cons_append, List.nil_append, readChars, hq, hb, ↓reduceIte]

theorem readChars_escapes (rest : List Char) : ∀ cs : List Char,
    readChars .plain (cs.flatMap escape ++ quote :: rest) = some (cs, rest)
  | [] => by simp [readChars]
  | c :: cs => by
    rw [List.flatMap_cons, List.append_assoc, readChars_escape, readChars_escapes rest cs, Option.map_some]

def writeStr (s : String) : List Char := quote :: s.toList.flatMap escape ++ [quote]

def readStr (cs : List Char) : Option (String × List Char) := do
  let cs ← expect [quote] cs
  let (s, cs) ← readChars .plain cs
  return (String.ofList s, cs)

@[simp] theorem readStr_write (s : String) (rest : List Char) : readStr (writeStr s ++ rest) = some (s, rest) := by
  have h : writeStr s ++ rest = [quote] ++ (s.toList.flatMap escape ++ quote :: rest) := by simp [writeStr]
  rw [readStr, h, expect_append]
  simp [readChars_escapes]

/-! ## Numbers -/

def readNat (cs : List Char) : Option (Nat × List Char) :=
  match cs.takeWhile Char.isDigit with
  | [] => none
  | ds => some (Nat.ofDigitChars 10 ds 0, cs.dropWhile Char.isDigit)

/-- The text goes on with something else than a digit. -/
def Delimited (rest : List Char) : Prop := ∀ c ∈ rest.head?, c.isDigit = false

theorem readNat_write {n : Nat} {rest : List Char} (h : Delimited rest) :
    readNat (Nat.toDigits 10 n ++ rest) = some (n, rest) := by
  have hd : ∀ c ∈ Nat.toDigits 10 n, c.isDigit = true :=
    fun c hc => Nat.isDigit_of_mem_toDigits (by decide) (by decide) hc
  have ht : (Nat.toDigits 10 n ++ rest).takeWhile Char.isDigit = Nat.toDigits 10 n := by
    rw [List.takeWhile_append_of_pos hd]
    cases rest with
    | nil => simp
    | cons c cs => rw [List.takeWhile_cons_of_neg (by simp [h c (by simp)]), List.append_nil]
  have hr : (Nat.toDigits 10 n ++ rest).dropWhile Char.isDigit = rest := by
    rw [List.dropWhile_append_of_pos hd]
    cases rest with
    | nil => rfl
    | cons c cs => rw [List.dropWhile_cons_of_neg (by simp [h c (by simp)])]
  unfold readNat
  rw [ht, hr]
  split
  · rename_i h0
    exact absurd h0 Nat.toDigits_ne_nil
  · rw [Nat.ofDigitChars_ten_toDigits]

def writeInt : Int → List Char
  | .ofNat n => Nat.toDigits 10 n
  | .negSucc n => '-' :: Nat.toDigits 10 (n + 1)

def readInt (cs : List Char) : Option (Int × List Char) :=
  match cs with
  | '-' :: cs => (readNat cs).map fun r => (-(r.1 : Int), r.2)
  | cs => (readNat cs).map fun r => (r.1, r.2)

theorem readInt_write {i : Int} {rest : List Char} (h : Delimited rest) :
    readInt (writeInt i ++ rest) = some (i, rest) := by
  cases i with
  | ofNat n =>
    have hne : ∀ cs, Nat.toDigits 10 n ++ rest ≠ '-' :: cs := by
      intro cs hcs
      have hd : ∀ c ∈ Nat.toDigits 10 n, c.isDigit = true :=
        fun c hc => Nat.isDigit_of_mem_toDigits (by decide) (by decide) hc
      cases ht : Nat.toDigits 10 n with
      | nil => exact Nat.toDigits_ne_nil ht
      | cons c ds =>
        rw [ht, List.cons_append] at hcs
        rw [ht, (List.cons.inj hcs).1] at hd
        exact absurd (hd '-' List.mem_cons_self) (by decide)
    unfold readInt writeInt
    split
    · rename_i hcs
      exact absurd hcs (hne _)
    · rw [readNat_write h]
      rfl
  | negSucc n =>
    have hr : readInt (writeInt (.negSucc n) ++ rest) = (readNat (Nat.toDigits 10 (n + 1) ++ rest)).map
        fun r => (-(r.1 : Int), r.2) := rfl
    rw [hr, readNat_write h]
    rfl

/-! ## Arrays -/

section Array

variable {α : Type}

def writeTail (write : α → List Char) : List α → List Char
  | [] => [']']
  | a :: as => ',' :: write a ++ writeTail write as

def writeArray (write : α → List Char) : List α → List Char
  | [] => ['[', ']']
  | a :: as => '[' :: write a ++ writeTail write as

/-- The items after the first one; the fuel bounds their number. -/
def readTail (read : List Char → Option (α × List Char)) : Nat → List Char → Option (List α × List Char)
  | 0, _ => none
  | n + 1, cs =>
    match cs with
    | ']' :: cs => some ([], cs)
    | ',' :: cs => do
      let (a, cs) ← read cs
      let (as, cs) ← readTail read n cs
      return (a :: as, cs)
    | _ => none

def readArray (read : List Char → Option (α × List Char)) (cs : List Char) : Option (List α × List Char) := do
  let cs ← expect ['['] cs
  match cs with
  | ']' :: cs => return ([], cs)
  | cs => do
    let (a, cs) ← read cs
    let (as, cs) ← readTail read (cs.length + 1) cs
    return (a :: as, cs)

variable {write : α → List Char} {read : List Char → Option (α × List Char)}

theorem writeTail_delimited (as : List α) (rest : List Char) : Delimited (writeTail write as ++ rest) := by
  cases as <;> intro c hc <;> cases hc <;> rfl

theorem length_writeTail (as : List α) : as.length < (writeTail write as).length := by
  induction as with
  | nil => simp [writeTail]
  | cons a as ih => simp only [writeTail, List.length_append, List.length_cons]; omega

theorem readTail_write (hread : ∀ a rest, Delimited rest → read (write a ++ rest) = some (a, rest)) (rest : List Char) :
    ∀ (as : List α) (n : Nat), as.length < n → readTail read n (writeTail write as ++ rest) = some (as, rest)
  | _, 0, h => absurd h (Nat.not_lt_zero _)
  | [], n + 1, _ => rfl
  | a :: as, n + 1, h => by
    have h₁ : readTail read (n + 1) (writeTail write (a :: as) ++ rest) =
        (read (write a ++ (writeTail write as ++ rest))).bind fun r =>
          (readTail read n r.2).bind fun q => some (r.1 :: q.1, q.2) := by
      rw [writeTail, List.cons_append, List.cons_append, List.append_assoc]
      rfl
    rw [h₁, hread _ _ (writeTail_delimited as rest), Option.bind_some,
      readTail_write hread rest as n (by simpa using h)]
    rfl

/-- **An array reads back**, if its items do and none of them starts with a bracket. -/
theorem readArray_write (hread : ∀ a rest, Delimited rest → read (write a ++ rest) = some (a, rest))
    (hstart : ∀ a rest cs, write a ++ rest ≠ ']' :: cs) (as : List α) (rest : List Char) :
    readArray read (writeArray write as ++ rest) = some (as, rest) := by
  cases as with
  | nil => rfl
  | cons a as =>
    have hw : writeArray write (a :: as) ++ rest = ['['] ++ (write a ++ (writeTail write as ++ rest)) := by
      simp [writeArray]
    have hlen : as.length < (writeTail write as ++ rest).length + 1 := by
      have hw := @length_writeTail α write as
      rw [List.length_append]
      omega
    simp only [readArray, hw, expect_append, Option.bind_eq_bind, Option.bind_some]
    split
    · rename_i hcs
      exact absurd hcs (hstart _ _ _)
    · rw [hread _ _ (writeTail_delimited as rest), Option.bind_some, readTail_write hread rest as _ hlen]
      rfl

end Array

/-! ## Records -/

/-- A reader goes on after what it has read. -/
theorem bind_of_eq {α β : Type} {x : Option α} {a : α} {f : α → Option β} {r : Option β} (hx : x = some a)
    (hf : f a = r) :
    (x >>= f) = r := by
  rw [hx]
  exact hf

/-- A fixed text. -/
def text (s : String) : List Char := s.toList

/-- `SCREAMING_SNAKE_CASE` -/
def globalName : GlobalStatus → String
  | .submitted => "SUBMITTED"
  | .aborting => "ABORTING"
  | .aborted => "ABORTED"
  | .committing => "COMMITTING"
  | .committed => "COMMITTED"

def globalStatuses : List GlobalStatus := [.submitted, .aborting, .aborted, .committing, .committed]

def branchName : BranchStatus → String
  | .prepared => "PREPARED"
  | .succeed => "SUCCEED"
  | .failed => "FAILED"

def branchStatuses : List BranchStatus := [.prepared, .succeed, .failed]

/-- One of finitely many values, written by its name. -/
def readName {α : Type} (name : α → String) (all : List α) (cs : List Char) : Option (α × List Char) := do
  let (s, cs) ← readStr cs
  let a ← all.find? fun a => name a == s
  return (a, cs)

@[simp] theorem readName_global (a : GlobalStatus) (rest : List Char) :
    readName globalName globalStatuses (writeStr (globalName a) ++ rest) = some (a, rest) := by
  simp only [readName, readStr_write, Option.bind_eq_bind, Option.bind_some]
  cases a <;> rfl

@[simp] theorem readName_branch (a : BranchStatus) (rest : List Char) :
    readName branchName branchStatuses (writeStr (branchName a) ++ rest) = some (a, rest) := by
  simp only [readName, readStr_write, Option.bind_eq_bind, Option.bind_some]
  cases a <;> rfl

def writeByte (b : UInt8) : List Char := Nat.toDigits 10 b.toNat

def readByte (cs : List Char) : Option (UInt8 × List Char) := do
  let (n, cs) ← readNat cs
  if n < 256 then some (UInt8.ofNat n, cs) else none

theorem readByte_write (b : UInt8) (rest : List Char) (h : Delimited rest) :
    readByte (writeByte b ++ rest) = some (b, rest) := by
  have hb : b.toNat < 256 := b.toNat_lt
  simp [readByte, writeByte, readNat_write h, hb]

def writeBranch (b : BranchTxn) : List Char :=
  text "\x7b\"branch_id\":" ++ (writeStr b.branchId ++ (text ",\"action\":" ++ (writeStr b.action ++
    (text ",\"status\":" ++ (writeStr (branchName b.status) ++ text "\x7d")))))

def readBranch (cs : List Char) : Option (BranchTxn × List Char) := do
  let cs ← expect (text "\x7b\"branch_id\":") cs
  let (branchId, cs) ← readStr cs
  let cs ← expect (text ",\"action\":") cs
  let (action, cs) ← readStr cs
  let cs ← expect (text ",\"status\":") cs
  let (status, cs) ← readName branchName branchStatuses cs
  let cs ← expect (text "\x7d") cs
  return ({ branchId, action, status }, cs)

theorem readBranch_write (b : BranchTxn) (rest : List Char) : readBranch (writeBranch b ++ rest) = some (b, rest) := by
  simp only [writeBranch, List.append_assoc]
  refine bind_of_eq (expect_append _ _) (bind_of_eq (readStr_write _ _) ?_)
  refine bind_of_eq (expect_append _ _) (bind_of_eq (readStr_write _ _) ?_)
  refine bind_of_eq (expect_append _ _) (bind_of_eq (readName_branch _ _) ?_)
  exact bind_of_eq (expect_append _ _) rfl

def write (tx : GlobalTxn) : List Char :=
  text "\x7b\"gid\":" ++ (writeStr tx.gid ++ (text ",\"mode\":" ++ (writeStr tx.mode ++
    (text ",\"status\":" ++ (writeStr (globalName tx.status) ++
    (text ",\"payload\":" ++ (writeArray writeByte tx.payload ++
    (text ",\"branches\":" ++ (writeArray writeBranch tx.branches ++
    (text ",\"updated_unix\":" ++ (writeInt tx.updatedUnix ++
    (text ",\"created_unix\":" ++ (writeInt tx.createdUnix ++ text "\x7d")))))))))))))

def read (cs : List Char) : Option (GlobalTxn × List Char) := do
  let cs ← expect (text "\x7b\"gid\":") cs
  let (gid, cs) ← readStr cs
  let cs ← expect (text ",\"mode\":") cs
  let (mode, cs) ← readStr cs
  let cs ← expect (text ",\"status\":") cs
  let (status, cs) ← readName globalName globalStatuses cs
  let cs ← expect (text ",\"payload\":") cs
  let (payload, cs) ← readArray readByte cs
  let cs ← expect (text ",\"branches\":") cs
  let (branches, cs) ← readArray readBranch cs
  let cs ← expect (text ",\"updated_unix\":") cs
  let (updatedUnix, cs) ← readInt cs
  let cs ← expect (text ",\"created_unix\":") cs
  let (createdUnix, cs) ← readInt cs
  let cs ← expect (text "\x7d") cs
  return ({ gid, mode, status, payload, branches, updatedUnix, createdUnix }, cs)

theorem writeByte_start (b : UInt8) (rest cs : List Char) : writeByte b ++ rest ≠ ']' :: cs := by
  intro h
  have hd : ∀ c ∈ writeByte b, c.isDigit = true := fun c hc => Nat.isDigit_of_mem_toDigits (by decide) (by decide) hc
  cases hw : writeByte b with
  | nil => exact Nat.toDigits_ne_nil hw
  | cons c ds =>
    rw [hw, List.cons_append] at h
    rw [hw, (List.cons.inj h).1] at hd
    exact absurd (hd ']' List.mem_cons_self) (by decide)

/-- **A record reads back.** -/
theorem read_write (tx : GlobalTxn) (rest : List Char) : read (write tx ++ rest) = some (tx, rest) := by
  have hp (rest : List Char) : readArray readByte (writeArray writeByte tx.payload ++ rest) = some (tx.payload, rest) :=
    readArray_write readByte_write writeByte_start _ _
  have hb (rest : List Char) : readArray readBranch (writeArray writeBranch tx.branches ++ rest) =
      some (tx.branches, rest) :=
    readArray_write (fun b rest _ => readBranch_write b rest) (fun b rest cs h => by cases h) _ _
  have hu (rest : List Char) : readInt (writeInt tx.updatedUnix ++ (text ",\"created_unix\":" ++ rest)) =
      some (tx.updatedUnix, text ",\"created_unix\":" ++ rest) := readInt_write fun c hc => by cases hc; rfl
  have hc (rest : List Char) : readInt (writeInt tx.createdUnix ++ (text "\x7d" ++ rest)) =
      some (tx.createdUnix, text "\x7d" ++ rest) := readInt_write fun c hc => by cases hc; rfl
  simp only [write, List.append_assoc]
  refine bind_of_eq (expect_append _ _) (bind_of_eq (readStr_write _ _) ?_)
  refine bind_of_eq (expect_append _ _) (bind_of_eq (readStr_write _ _) ?_)
  refine bind_of_eq (expect_append _ _) (bind_of_eq (readName_global _ _) ?_)
  refine bind_of_eq (expect_append _ _) (bind_of_eq (hp _) ?_)
  refine bind_of_eq (expect_append _ _) (bind_of_eq (hb _) ?_)
  refine bind_of_eq (expect_append _ _) (bind_of_eq (hu _) ?_)
  refine bind_of_eq (expect_append _ _) (bind_of_eq (hc _) ?_)
  exact bind_of_eq (expect_append _ _) rfl

/-! ## Any value -/

mutual

def writeValue : Value → List Char
  | .null => text "null"
  | .bool b => text (if b then "true" else "false")
  | .int n => writeInt n
  | .float s => text s
  | .string s => writeStr s
  | .array [] => text "[]"
  | .array (v :: vs) => '[' :: writeValue v ++ writeItems vs
  | .object [] => text "\x7b\x7d"
  | .object (f :: fs) => text "\x7b" ++ writeField f ++ writeFields fs

def writeItems : List Value → List Char
  | [] => [']']
  | v :: vs => ',' :: writeValue v ++ writeItems vs

def writeField : String × Value → List Char
  | (name, v) => writeStr name ++ ':' :: writeValue v

def writeFields : List (String × Value) → List Char
  | [] => text "\x7d"
  | f :: fs => ',' :: writeField f ++ writeFields fs

end

/-! ## The encoding -/

def toVec (tx : GlobalTxn) : Bytes := asBytes (String.ofList (write tx))

def fromSlice (bytes : Bytes) : Except Error GlobalTxn :=
  match ByteArray.utf8Decode? ⟨⟨bytes⟩⟩ with
  | none => .error ⟨"invalid unicode code point"⟩
  | some cs =>
    match read cs.toList with
    | some (tx, []) => .ok tx
    | _ => .error ⟨"expected value"⟩

/-- **The JSON encoding of records**, with its law. -/
@[reducible] def serdeJson : SerdeJson where
  toVec := toVec
  fromSlice := fromSlice
  fromSlice_toVec tx := by
    have hd : ByteArray.utf8Decode? ⟨⟨toVec tx⟩⟩ = some (write tx).toArray := List.utf8Decode?_utf8Encode
    have hr : read (write tx) = some (tx, []) := by
      have h := read_write tx []
      rwa [List.append_nil] at h
    simp only [fromSlice, hd, hr]

example : toVec ⟨"a", "saga", .committed, [116, 0], [⟨"b", "http://b", .succeed⟩], -1, 170⟩ = asBytes
    ("\x7b\"gid\":\"a\",\"mode\":\"saga\",\"status\":\"COMMITTED\",\"payload\":[116,0],\"branches\":[" ++
      "\x7b\"branch_id\":\"b\",\"action\":\"http://b\",\"status\":\"SUCCEED\"\x7d" ++
      "],\"updated_unix\":-1,\"created_unix\":170\x7d") := by decide +kernel

end Json

/-- A record with one prepared branch. -/
def oneBranch : GlobalTxn := ⟨"g", "saga", .submitted, [1], [⟨"b", "http://b", .prepared⟩], 1, 1⟩

end Seata
