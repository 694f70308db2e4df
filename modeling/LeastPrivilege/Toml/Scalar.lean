import LeastPrivilege.Text.Numeral

/-!
# Plain values of TOML

The forms of truth values, numbers, dates and times. A plain value is a run of letters, digits and
a few signs; here it is decided whether such a run has one of the forms.
-/

namespace LeastPrivilege.Toml

/-- The characters of a plain value. -/
def isPlainChar (c : Char) : Bool :=
  c.isAlphanum || c == '+' || c == '-' || c == '_' || c == '.' || c == ':'

/-- A run of digits without its underscores, each of which stands between two digits. -/
def digitsOf? (isDigit : Char → Bool) (cs : List Char) : Option (List Char) :=
  let parts := cs.splitOn '_'
  if parts.all fun part => part ≠ [] ∧ part.all isDigit then some parts.flatten else none

/-- The digits of a decimal integer, which has no leading zero. -/
def wholeOf? (cs : List Char) : Option (List Char) :=
  (digitsOf? Char.isDigit cs).filter fun digits => digits = ['0'] ∨ digits.head? ≠ some '0'

/-- A text without its sign, and whether that is a minus. -/
def splitSign : List Char → Bool × List Char
  | '-' :: rest => (true, rest)
  | '+' :: rest => (false, rest)
  | cs => (false, cs)

/-- The value of digits in a base up to sixteen. -/
def valueIn (base : Nat) (digits : List Char) : Nat :=
  digits.foldl (fun n c => n * base + digit c) 0
where
  digit (c : Char) : Nat :=
    if c.isDigit then c.toNat - 48 else c.toLower.toNat - 87

/-- Whether a text is an integer of 64 bits, in base ten with a sign or in another base without. -/
def isInteger (cs : List Char) : Bool :=
  match cs with
  | '0' :: 'x' :: rest => fits 16 (fun c => c.isDigit || ('a' ≤ c.toLower && c.toLower ≤ 'f')) rest
  | '0' :: 'o' :: rest => fits 8 (fun c => '0' ≤ c && c ≤ '7') rest
  | '0' :: 'b' :: rest => fits 2 (fun c => c == '0' || c == '1') rest
  | cs =>
    let (negative, body) := splitSign cs
    match wholeOf? body with
    | some digits => valueIn 10 digits < UInt64.size / 2 + if negative then 1 else 0
    | none => false
where
  fits (base : Nat) (isDigit : Char → Bool) (cs : List Char) : Bool :=
    match digitsOf? isDigit cs with
    | some digits => valueIn base digits < UInt64.size / 2
    | none => false

/-- Whether `significand * 10 ^ exponent` lies above all doubles. Only near the largest one, which
has 309 digits, the number itself is worked out. -/
def overflows (significand : Nat) (exponent : Int) : Bool :=
  let digits := exponent + (Text.numeral significand).length
  if significand = 0 ∨ digits < 309 then false
  else if 309 < digits then true
  else
    let limit := Nat.pow 2 1024 - Nat.pow 2 970
    limit * Nat.pow 10 (-exponent).toNat ≤ significand * Nat.pow 10 exponent.toNat

/-- The two sides of the first character that passes a test. -/
def splitAtFirst? (p : Char → Bool) (cs : List Char) : Option (List Char × List Char) :=
  match cs.dropWhile (fun c => !p c) with
  | [] => none
  | _ :: right => some (cs.takeWhile (fun c => !p c), right)

/-- Whether a text is a number with a fraction or an exponent, or one of the special numbers. A
positive number must not lie above all doubles. -/
def isFloat (cs : List Char) : Bool :=
  let (negative, body) := splitSign cs
  body = ['i', 'n', 'f'] || body = ['n', 'a', 'n'] ||
    let (mantissa, exponent?) := match splitAtFirst? (fun c => c == 'e' || c == 'E') body with
      | some (mantissa, exponent) => (mantissa, some exponent)
      | none => (body, none)
    let (whole, fraction?) := match splitAtFirst? (· == '.') mantissa with
      | some (whole, fraction) => (whole, some fraction)
      | none => (mantissa, none)
    let (down, power) := splitSign (exponent?.getD ['0'])
    match wholeOf? whole, digitsOf? Char.isDigit (fraction?.getD ['0']),
        digitsOf? Char.isDigit power with
    | some whole, some fraction, some power =>
      let scale := (if down then -(valueIn 10 power : Int) else valueIn 10 power) - fraction.length
      (exponent?.isSome || fraction?.isSome) &&
        (negative || !overflows (valueIn 10 (whole ++ fraction)) scale)
    | _, _, _ => false

/-- The number that exactly `width` digits stand for, if it lies between two bounds. -/
def field? (width low high : Nat) (cs : List Char) : Option Nat :=
  if cs.length = width then (Text.natOfDigits? cs).filter fun n => low ≤ n && n ≤ high else none

/-- The number of days in a month. -/
def daysIn (year month : Nat) : Nat :=
  if month = 2 then
    if year % 4 = 0 ∧ (year % 100 ≠ 0 ∨ year % 400 = 0) then 29 else 28
  else if month = 4 ∨ month = 6 ∨ month = 9 ∨ month = 11 then 30
  else 31

/-- Whether a text is a date of the form `1999-12-31`. -/
def isDate (cs : List Char) : Bool :=
  match cs.splitOn '-' with
  | [year, month, day] =>
    match field? 4 0 9999 year, field? 2 1 12 month with
    | some year, some month => (field? 2 1 (daysIn year month) day).isSome
    | _, _ => false
  | _ => false

/-- Whether a text is a time of the form `23:59:60`, with or without a fraction. -/
def isTime (cs : List Char) : Bool :=
  let (clock, isWhole) := match splitAtFirst? (· == '.') cs with
    | some (clock, fraction) => (clock, (Text.natOfDigits? fraction).isSome)
    | none => (cs, true)
  match clock.splitOn ':' with
  | [hour, minute, second] =>
    isWhole && (field? 2 0 23 hour).isSome && (field? 2 0 59 minute).isSome &&
      (field? 2 0 60 second).isSome
  | _ => false

/-- Whether a text is a distance from universal time of the form `07:00`. -/
def isOffset (cs : List Char) : Bool :=
  match cs.splitOn ':' with
  | [hour, minute] => (field? 2 0 23 hour).isSome && (field? 2 0 59 minute).isSome
  | _ => false

/-- Whether a text is a time with or without a distance from universal time. -/
def isOffsetTime (cs : List Char) : Bool :=
  match splitAtFirst? (fun c => c == 'Z' || c == 'z' || c == '+' || c == '-') cs with
  | none => isTime cs
  | some (time, []) => isTime time && (cs.getLast? == some 'Z' || cs.getLast? == some 'z')
  | some (time, offset) =>
    isTime time && isOffset offset && !(cs.contains 'Z' || cs.contains 'z')

/-- Whether a text is a date, a time, or both with a letter between them. -/
def isDateTime (cs : List Char) : Bool :=
  isDate cs || isTime cs ||
    match cs.drop 10 with
    | c :: time => (c == 'T' || c == 't' || c == ' ') && isDate (cs.take 10) && isOffsetTime time
    | [] => false

/-- Whether a text is a truth value, a number, a date or a time. -/
def isPlain (cs : List Char) : Bool :=
  cs = ['t', 'r', 'u', 'e'] || cs = ['f', 'a', 'l', 's', 'e'] || isInteger cs || isFloat cs ||
    isDateTime cs

/-- The plain value that a text starts with, and what follows. A time may follow a date after a
blank. -/
def scanPlain? (cs : List Char) : Option (List Char) :=
  let word := cs.takeWhile isPlainChar
  let rest := cs.dropWhile isPlainChar
  let longer? := match rest with
    | ' ' :: more =>
      let time := more.takeWhile isPlainChar
      if isDate word && isDateTime (word ++ ' ' :: time) then some (more.dropWhile isPlainChar)
      else none
    | _ => none
  match longer? with
  | some rest => some rest
  | none => if isPlain word then some rest else none

end LeastPrivilege.Toml
