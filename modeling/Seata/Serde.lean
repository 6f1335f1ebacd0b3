import Mathlib.Data.List.Basic

/-!
# Deserializers by the derived rules

A deserializer takes a JSON value and rejects it or gives a value of its own type. The fields of an object are kept as
they stand, so a key may occur twice.

- `required`, `optional`, `defaulted`: the three kinds of declared fields. A declared field that occurs twice is an
  error, and one that is not declared is ignored;
- `struct`: a struct is read from an object or from an array;
- `untagged`: the variants of an enumeration in the order of their declarations, the first that accepts wins.
-/

namespace Serde

/-- A JSON value. A number that is not written as an integer is kept as its text. -/
inductive Value where
  | null
  | bool (b : Bool)
  | int (n : Int)
  | float (text : String)
  | string (s : String)
  | array (vs : List Value)
  | object (fields : List (String × Value))

/-- A deserializer; `none` is a rejection. -/
abbrev De (α : Type) : Type := Value → Option α

variable {α : Type}

def any : De Value := some

def unit : De Unit
  | .null => some ()
  | _ => none

def string : De String
  | .string s => some s
  | _ => none

def u8 : De UInt8
  | .int n => if 0 ≤ n ∧ n < 256 then some (UInt8.ofNat n.toNat) else none
  | _ => none

/-- A list of elements. -/
def vec (d : De α) : De (List α)
  | .array vs => vs.mapM d
  | _ => none

def option (d : De α) : De (Option α)
  | .null => some none
  | v => (d v).map some

/-! ## Fields -/

/-- The value of a declared field, if it is there; a field that occurs twice is rejected. -/
def field (name : String) (fields : List (String × Value)) : Option (Option Value) :=
  match fields.filter fun f => f.1 == name with
  | [] => some none
  | [f] => some (some f.2)
  | _ => none

def required (d : De α) (name : String) (fields : List (String × Value)) : Option α := do
  let some v ← field name fields | none
  d v

/-- A field of an optional type. -/
def optional (d : De α) (name : String) (fields : List (String × Value)) : Option (Option α) := do
  match ← field name fields with
  | some v => option d v
  | none => some none

/-- A field with `#[serde(default)]`. -/
def defaulted (d : De α) (dflt : α) (name : String) (fields : List (String × Value)) : Option α := do
  match ← field name fields with
  | some v => d v
  | none => some dflt

/-! ## Structs and variants -/

/-- A struct: an object by the names of its fields, or an array in their order. -/
def struct (named : List (String × Value) → Option α) (positional : List Value → Option α) : De α
  | .object fields => named fields
  | .array vs => positional vs
  | _ => none

/-- A variant with named fields of an untagged enumeration; it takes no array. -/
def variant (named : List (String × Value) → Option α) : De α
  | .object fields => named fields
  | _ => none

def untagged : List (De α) → De α
  | [], _ => none
  | d :: ds, v =>
    match d v with
    | some a => some a
    | none => untagged ds v

theorem untagged_of_accepted {d : De α} {v : Value} {a : α} (h : d v = some a) (ds : List (De α)) :
    untagged (d :: ds) v = some a := by
  rw [untagged, h]

theorem untagged_of_rejected {d : De α} {v : Value} (h : d v = none) (ds : List (De α)) :
    untagged (d :: ds) v = untagged ds v := by
  rw [untagged, h]

end Serde
