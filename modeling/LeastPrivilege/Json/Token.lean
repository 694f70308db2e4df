import LeastPrivilege.Json.Basic

/-!
# Tokens of a JSON text

A text is cut into tokens; the four white space characters may stand between them. Scanning checks
the spelling of each token. Where the tokens may stand is left to the reader.
-/

namespace LeastPrivilege.Json

/-- A token of a JSON text. -/
inductive Token where
  | beginArray
  | endArray
  | beginObject
  | endObject
  | colon
  | comma
  | null
  | bool (value : Bool)
  | number (value : Number)
  | string (value : Option String)
  deriving DecidableEq, Repr

/-- A part of a string: a character, or a number given by an escape of four hexadecimal digits. -/
inductive StringPart where
  | char (c : Char)
  | code (n : Nat)
  deriving DecidableEq, Repr

namespace StringPart

/-- Whether a number is the first half of a surrogate pair. -/
def isHigh (n : Nat) : Bool :=
  0xD800 ≤ n && n < 0xDC00

/-- Whether a number is the second half of a surrogate pair. -/
def isLow (n : Nat) : Bool :=
  0xDC00 ≤ n && n < 0xE000

/-- The character that a surrogate pair stands for. -/
def pair (high low : Nat) : Char :=
  Char.ofNat (0x10000 + (high - 0xD800) * 0x400 + (low - 0xDC00))

/-- The characters that the parts spell after those already known, the latest first. -/
def spellAfter (known : List Char) : List StringPart → Option (List Char)
  | [] => some known.reverse
  | .char c :: parts => spellAfter (c :: known) parts
  | .code n :: parts =>
    if isHigh n then
      match parts with
      | .code m :: rest => if isLow m then spellAfter (pair n m :: known) rest else none
      | _ => none
    else if isLow n then none
    else spellAfter (Char.ofNat n :: known) parts

/-- The text that the parts spell, if no half of a surrogate pair stands alone. -/
def spell? (parts : List StringPart) : Option String :=
  (spellAfter [] parts).map String.ofList

end StringPart

namespace Token

/-- The characters that may stand between tokens. -/
def isSpace (c : Char) : Bool :=
  c == ' ' || c == '\t' || c == '\n' || c == '\r'

/-- The value of a hexadecimal digit. -/
def hexDigit? (c : Char) : Option Nat :=
  if c.isDigit then some (c.toNat - 48)
  else if 'a' ≤ c ∧ c ≤ 'f' then some (c.toNat - 87)
  else if 'A' ≤ c ∧ c ≤ 'F' then some (c.toNat - 55)
  else none

/-- The value of four hexadecimal digits. -/
def hexCode? (a b c d : Char) : Option Nat := do
  let a ← hexDigit? a
  let b ← hexDigit? b
  let c ← hexDigit? c
  let d ← hexDigit? d
  return a * 0x1000 + b * 0x100 + c * 0x10 + d

/-- The character that a one-letter escape stands for. -/
def escaped? : Char → Option Char
  | '"' => some '"'
  | '\\' => some '\\'
  | '/' => some '/'
  | 'b' => some '\x08'
  | 'f' => some '\x0c'
  | 'n' => some '\n'
  | 'r' => some '\r'
  | 't' => some '\t'
  | _ => none

/-- The parts of a string up to its closing quote, after those already known, the latest first; and
what follows the quote. -/
def scanString? (known : List StringPart) : List Char → Option (List StringPart × List Char)
  | [] => none
  | '"' :: rest => some (known.reverse, rest)
  | '\\' :: 'u' :: a :: b :: c :: d :: rest =>
    match hexCode? a b c d with
    | some n => scanString? (.code n :: known) rest
    | none => none
  | '\\' :: e :: rest =>
    match escaped? e with
    | some c => scanString? (.char c :: known) rest
    | none => none
  | c :: rest =>
    if c.toNat < 0x20 ∨ c = '\\' then none else scanString? (.char c :: known) rest

/-- The digits after a decimal point, if there is one, and what follows. -/
def scanFraction? : List Char → Option (List Char × List Char)
  | '.' :: rest =>
    let digits := rest.takeWhile Char.isDigit
    if digits = [] then none else some (digits, rest.dropWhile Char.isDigit)
  | rest => some ([], rest)

/-- The value of an exponent, if there is one, and what follows. -/
def scanExponent? : List Char → Option (Option Int × List Char)
  | [] => some (none, [])
  | c :: rest =>
    if c = 'e' ∨ c = 'E' then
      let (negative, rest) := match rest with
        | '-' :: rest => (true, rest)
        | '+' :: rest => (false, rest)
        | rest => (false, rest)
      match Text.natOfDigits? (rest.takeWhile Char.isDigit) with
      | some n => some (some (if negative then -(n : Int) else n), rest.dropWhile Char.isDigit)
      | none => none
    else some (none, c :: rest)

/-- The number that a text starts with, and what follows. The whole part has no leading zero. -/
def scanNumber? (cs : List Char) : Option (Number × List Char) := do
  let (negative, cs) := match cs with
    | '-' :: rest => (true, rest)
    | cs => (false, cs)
  let whole := cs.takeWhile Char.isDigit
  guard (whole ≠ [] ∧ (whole.head? = some '0' → whole = ['0']))
  let (fraction, rest) ← scanFraction? (cs.dropWhile Char.isDigit)
  let (exponent?, rest) ← scanExponent? rest
  let significand := Nat.ofDigitChars 10 (whole ++ fraction) 0
  match fraction, exponent? with
  | [], none => return (.integer negative significand, rest)
  | fraction, exponent? =>
    return (.decimal negative significand (exponent?.getD 0 - fraction.length), rest)

/-- The token that a text starts with, and what follows. -/
def scan? : List Char → Option (Token × List Char)
  | '[' :: rest => some (beginArray, rest)
  | ']' :: rest => some (endArray, rest)
  | '\x7b' :: rest => some (beginObject, rest)
  | '\x7d' :: rest => some (endObject, rest)
  | ':' :: rest => some (colon, rest)
  | ',' :: rest => some (comma, rest)
  | 'n' :: 'u' :: 'l' :: 'l' :: rest => some (null, rest)
  | 't' :: 'r' :: 'u' :: 'e' :: rest => some (bool true, rest)
  | 'f' :: 'a' :: 'l' :: 's' :: 'e' :: rest => some (bool false, rest)
  | '"' :: rest =>
    match scanString? [] rest with
    | some (parts, rest) => some (string (StringPart.spell? parts), rest)
    | none => none
  | cs =>
    match scanNumber? cs with
    | some (n, rest) => some (number n, rest)
    | none => none

/-- The tokens of a text after those already known, the latest first. The fuel bounds the number of
characters and tokens that are left. -/
def scanAfter (known : List Token) : Nat → List Char → Option (List Token)
  | _, [] => some known.reverse
  | 0, _ :: _ => none
  | fuel + 1, c :: cs =>
    if isSpace c then scanAfter known fuel cs
    else
      match scan? (c :: cs) with
      | some (token, rest) => scanAfter (token :: known) fuel rest
      | none => none

/-- The tokens of a text. Each token takes at least one character. -/
def scanAll? (cs : List Char) : Option (List Token) :=
  scanAfter [] cs.length cs

end Token

end LeastPrivilege.Json
