import Seata.Saga

/-!
# The payload of a branch call

A participant decodes the payload of the call that it gets (`Base64.decode`): groups of four letters, of which only the
last may be padded, and then with zeros for the bits that are left. It gets the payload that was encoded
(`decode_encode`).
-/

namespace Seata

namespace Base64

def sextetOf (c : Char) : Option Nat := alphabet.idxOf? c

/-- Four letters to three bytes; the last group may be padded. -/
def decodeChars : List Char → Option Bytes
  | [] => some []
  | [a, b, '=', '='] => do
    let n := (← sextetOf a) * 64 + (← sextetOf b)
    if n % 16 = 0 then some [UInt8.ofNat (n / 16)] else none
  | [a, b, c, '='] => do
    let n := (← sextetOf a) * 4096 + (← sextetOf b) * 64 + (← sextetOf c)
    if n % 4 = 0 then some [UInt8.ofNat (n / 1024), UInt8.ofNat (n / 4)] else none
  | a :: b :: c :: d :: rest => do
    let n := (← sextetOf a) * 262144 + (← sextetOf b) * 4096 + (← sextetOf c) * 64 + (← sextetOf d)
    let bytes ← decodeChars rest
    return UInt8.ofNat (n / 65536) :: UInt8.ofNat (n / 256) :: UInt8.ofNat n :: bytes
  | _ => none

def decode (s : String) : Option Bytes := decodeChars s.toList

theorem sextetOf_alphabet : ∀ k < 64, sextetOf (alphabet.getD k '=') = some k ∧ alphabet.getD k '=' ≠ '=' := by decide

theorem sextetOf_sextet (n : Nat) : sextetOf (sextet n) = some (n % 64) :=
  (sextetOf_alphabet _ (Nat.mod_lt _ (by decide))).1

theorem sextet_ne_pad (n : Nat) : sextet n ≠ '=' := (sextetOf_alphabet _ (Nat.mod_lt _ (by decide))).2

/-- A full group, whatever follows. -/
theorem decodeChars_group {a b c d : Char} {rest : List Char} (hd : d ≠ '=') :
    decodeChars (a :: b :: c :: d :: rest) = (do
      let n := (← sextetOf a) * 262144 + (← sextetOf b) * 4096 + (← sextetOf c) * 64 + (← sextetOf d)
      let bytes ← decodeChars rest
      return UInt8.ofNat (n / 65536) :: UInt8.ofNat (n / 256) :: UInt8.ofNat n :: bytes) := by
  rw [decodeChars]
  · exact fun _ h _ => hd h
  · exact fun h _ => hd h

theorem ofNat_eq {a : UInt8} {n : Nat} (h : n % 256 = a.toNat) : UInt8.ofNat n = a := by
  rw [← UInt8.toNat_inj, UInt8.toNat_ofNat']
  exact h

/-- **The payload arrives**: what is encoded is what is decoded. -/
theorem decodeChars_encodeChars : ∀ payload : Bytes, decodeChars (encodeChars payload) = some payload
  | a :: b :: c :: rest => by
    have ha := a.toNat_lt
    have hb := b.toNat_lt
    have hc := c.toNat_lt
    rw [encodeChars, decodeChars_group (sextet_ne_pad _), decodeChars_encodeChars rest]
    simp only [sextetOf_sextet, Option.bind_eq_bind, Option.bind_some, Option.pure_def, Option.some.injEq,
      List.cons.injEq, and_true]
    exact ⟨ofNat_eq (by omega), ofNat_eq (by omega), ofNat_eq (by omega)⟩
  | [a, b] => by
    have ha := a.toNat_lt
    have hb := b.toNat_lt
    rw [encodeChars, decodeChars]
    · simp only [sextetOf_sextet, Option.bind_eq_bind, Option.bind_some]
      rw [if_pos (by omega)]
      simp only [Option.some.injEq, List.cons.injEq, and_true]
      exact ⟨ofNat_eq (by omega), ofNat_eq (by omega)⟩
    · exact sextet_ne_pad _
  | [a] => by
    have ha := a.toNat_lt
    rw [encodeChars, decodeChars]
    simp only [sextetOf_sextet, Option.bind_eq_bind, Option.bind_some]
    rw [if_pos (by omega)]
    simp only [Option.some.injEq, List.cons.injEq, and_true]
    exact ofNat_eq (by omega)
  | [] => rfl

@[simp] theorem decode_encode (payload : Bytes) : decode (encode payload) = some payload := by
  rw [decode, encode, String.toList_ofList, decodeChars_encodeChars]

end Base64

end Seata
