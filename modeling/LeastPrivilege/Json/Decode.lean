import LeastPrivilege.Json.Basic

/-!
# Decoding JSON values

How values of other types are read off a JSON value. A record is written as an object, in any order
and with unknown names ignored, or as the array of its fields in their order.
-/

namespace LeastPrivilege.Json

/-- The text of a string. -/
def toText? : Json → Option String
  | .string s => s
  | _ => none

/-- The truth value of a value. -/
def toBool? : Json → Option Bool
  | .bool b => some b
  | _ => none

/-- The integer from `0` to `2 ^ 64 - 1` that a value stands for. -/
def toWord? : Json → Option UInt64
  | .number n => n.toWord?
  | _ => none

/-- The integer from `0` to `2 ^ 32 - 1` that a value stands for. -/
def toWord32? (v : Json) : Option UInt32 :=
  v.toWord?.bind fun w => if w.toNat < UInt32.size then some (UInt32.ofNat w.toNat) else none

/-- The integer from `0` to `255` that a value stands for. -/
def toWord8? (v : Json) : Option UInt8 :=
  v.toWord?.bind fun w => if w.toNat < UInt8.size then some (UInt8.ofNat w.toNat) else none

/-- The items of an array, each decoded. -/
def toList? {α : Type} (decode : Json → Option α) : Json → Option (List α)
  | .array items => items.mapM decode
  | _ => none

/-- The name that a value gives, out of a table of names. An object that maps the name to null does
as well as the bare name. -/
def toMember? {α : Type} (table : List (String × α)) : Json → Option α
  | .string (some name) => table.lookup name
  | .object [(some name, .null)] => table.lookup name
  | _ => none

/-- The one field of an object that has no other. -/
def toVariant? : Json → Option (String × Json)
  | .object [(some name, v)] => some (name, v)
  | _ => none

/-- The known fields of a record, by name. In an object every name has to spell a text and a known
name stands at most once; in an array the values stand in the order of the names, and those at the
end may be missing. -/
def toFields? (names : List String) : Json → Option (List (String × Json))
  | .object fields => do
    let named ← fields.mapM fun field => field.1.map fun name => (name, field.2)
    let known := named.filter fun field => names.contains field.1
    guard (known.map Prod.fst).Nodup
    return known
  | .array items => if items.length ≤ names.length then some (names.zip items) else none
  | _ => none

/-- A field that has to be present. -/
def field? {α : Type} (fields : List (String × Json)) (name : String) (decode : Json → Option α) :
    Option α :=
  (fields.lookup name).bind decode

/-- A field that may be missing. -/
def fieldOr? {α : Type} (fields : List (String × Json)) (name : String)
    (decode : Json → Option α) (fallback : α) : Option α :=
  match fields.lookup name with
  | some v => decode v
  | none => some fallback

end LeastPrivilege.Json
