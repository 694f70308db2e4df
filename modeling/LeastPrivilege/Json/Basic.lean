import LeastPrivilege.Json.Number

/-!
# JSON values

The tree that a JSON text describes. Objects keep their fields in the order of the text, repeated
names included. A string may spell no text at all: `none` stands for one with an escape for half of
a surrogate pair that stands alone.
-/

namespace LeastPrivilege

/-- A JSON value. -/
inductive Json where
  | null
  | bool (value : Bool)
  | number (value : Json.Number)
  | string (value : Option String)
  | array (items : List Json)
  | object (fields : List (Option String × Json))
  deriving Inhabited

namespace Json

/-- A string that spells a text. -/
def text (s : String) : Json :=
  .string (some s)

/-- A natural number. -/
def nat (n : Nat) : Json :=
  .number (.ofNat n)

/-- A list of strings. -/
def texts (ss : List String) : Json :=
  .array (ss.map text)

/-- An object whose names all spell texts. -/
def record (fields : List (String × Json)) : Json :=
  .object (fields.map fun field => (some field.1, field.2))

mutual

/-- Whether a value is sound: every string spells a text, every number is in the range of doubles,
and arrays and objects are nested at most `depth` deep. -/
def isSound : Nat → Json → Bool
  | _, .null => true
  | _, .bool _ => true
  | _, .number n => n.toWord?.isSome || n.toFloat?.isSome
  | _, .string s => s.isSome
  | 0, .array _ => false
  | 0, .object _ => false
  | depth + 1, .array items => areSound depth items
  | depth + 1, .object fields => areSoundFields depth fields

/-- `isSound` of every item. -/
def areSound : Nat → List Json → Bool
  | _, [] => true
  | depth, item :: items => isSound depth item && areSound depth items

/-- `isSound` of every value, where every name has to spell a text as well. -/
def areSoundFields : Nat → List (Option String × Json) → Bool
  | _, [] => true
  | depth, (name, value) :: fields =>
    name.isSome && isSound depth value && areSoundFields depth fields

end

end Json

end LeastPrivilege
