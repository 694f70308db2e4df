import LeastPrivilege.Json.Basic

/-!
# Printing JSON

Two layouts of a value: compact, without white space, and pretty, with one field or item to a line
and two blanks for each level.
-/

namespace LeastPrivilege.Json

/-- A hexadecimal digit in lower case. -/
def hexDigit (n : Nat) : Char :=
  Nat.digitChar n

/-- The spelling of a character inside a string. -/
def escape : Char → List Char
  | '"' => ['\\', '"']
  | '\\' => ['\\', '\\']
  | '\x08' => ['\\', 'b']
  | '\x0c' => ['\\', 'f']
  | '\n' => ['\\', 'n']
  | '\r' => ['\\', 'r']
  | '\t' => ['\\', 't']
  | c =>
    if c.toNat < 0x20 then ['\\', 'u', '0', '0', hexDigit (c.toNat / 16), hexDigit (c.toNat % 16)]
    else [c]

/-- A string in quotes. One that spells no text is written as half a surrogate pair. -/
def quote : Option String → List Char
  | some s => '"' :: (s.toList.flatMap escape ++ ['"'])
  | none => ['"', '\\', 'u', 'd', '8', '0', '0', '"']

namespace Number

/-- A minus in front of a negative number. -/
def sign (negative : Bool) : List Char :=
  if negative then ['-'] else []

/-- The digits of a number that stands for an integer. -/
def integerDigits? : Number → Option (List Char)
  | integer false n => if n < UInt64.size then some (Text.numeral n) else none
  | integer true n => if 0 < n ∧ n ≤ UInt64.size / 2 then some ('-' :: Text.numeral n) else none
  | decimal .. => none

/-- The digits of a number as they were given. -/
def givenDigits : Number → List Char
  | integer negative n => sign negative ++ Text.numeral n
  | decimal negative significand exponent =>
    sign negative ++ Text.numeral significand ++
      'e' :: (sign (exponent < 0) ++ Text.numeral exponent.natAbs)

/-- The spelling of a number by what it stands for: the digits of an integer, or the shortest
decimal of a double. A number beyond the doubles keeps the digits that were given. -/
def print (n : Number) : List Char :=
  match n.integerDigits? with
  | some digits => digits
  | none =>
    match n.toFloat? with
    | some x => (Decimal.shortest x).toList
    | none => n.givenDigits

end Number

mutual

/-- The compact layout. -/
def compactChars : Json → List Char
  | .null => ['n', 'u', 'l', 'l']
  | .bool true => ['t', 'r', 'u', 'e']
  | .bool false => ['f', 'a', 'l', 's', 'e']
  | .number n => n.print
  | .string s => quote s
  | .array [] => ['[', ']']
  | .array (item :: items) => '[' :: (compactChars item ++ compactItems items)
  | .object [] => ['\x7b', '\x7d']
  | .object ((name, v) :: fields) =>
    '\x7b' :: (quote name ++ ':' :: (compactChars v ++ compactFields fields))

/-- The items after the first, with the closing bracket. -/
def compactItems : List Json → List Char
  | [] => [']']
  | item :: items => ',' :: (compactChars item ++ compactItems items)

/-- The fields after the first, with the closing bracket. -/
def compactFields : List (Option String × Json) → List Char
  | [] => ['\x7d']
  | (name, v) :: fields => ',' :: (quote name ++ ':' :: (compactChars v ++ compactFields fields))

end

/-- A new line with two blanks for each level. -/
def newline (level : Nat) : List Char :=
  '\n' :: List.replicate (2 * level) ' '

mutual

/-- The pretty layout of a value inside `level` open brackets. -/
def prettyChars (level : Nat) : Json → List Char
  | .null => ['n', 'u', 'l', 'l']
  | .bool true => ['t', 'r', 'u', 'e']
  | .bool false => ['f', 'a', 'l', 's', 'e']
  | .number n => n.print
  | .string s => quote s
  | .array [] => ['[', ']']
  | .array (item :: items) =>
    '[' :: (newline (level + 1) ++ prettyChars (level + 1) item ++ prettyItems level items)
  | .object [] => ['\x7b', '\x7d']
  | .object ((name, v) :: fields) =>
    '\x7b' :: (newline (level + 1) ++ quote name ++ ':' :: ' ' ::
      (prettyChars (level + 1) v ++ prettyFields level fields))

/-- The items after the first, with the closing bracket. -/
def prettyItems (level : Nat) : List Json → List Char
  | [] => newline level ++ [']']
  | item :: items =>
    ',' :: (newline (level + 1) ++ prettyChars (level + 1) item ++ prettyItems level items)

/-- The fields after the first, with the closing bracket. -/
def prettyFields (level : Nat) : List (Option String × Json) → List Char
  | [] => newline level ++ ['\x7d']
  | (name, v) :: fields =>
    ',' :: (newline (level + 1) ++ quote name ++ ':' :: ' ' ::
      (prettyChars (level + 1) v ++ prettyFields level fields))

end

/-- A value without white space. -/
def compact (v : Json) : String :=
  String.ofList v.compactChars

/-- A value with one field or item to a line. -/
def pretty (v : Json) : String :=
  String.ofList (v.prettyChars 0)

end LeastPrivilege.Json
