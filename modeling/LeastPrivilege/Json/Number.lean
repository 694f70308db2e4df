import LeastPrivilege.Decimal.Shortest

/-!
# Numbers of a JSON text

A number is kept as it is written, so that an integer and a decimal of the same value stay apart.
Only an integer that fits 64 bits stands for an integer; every other number stands for a double.
-/

namespace LeastPrivilege.Json

/-- A number as a text writes it: `integer` has neither fraction nor exponent, and `decimal` stands
for `significand * 10 ^ exponent`. -/
inductive Number where
  | integer (negative : Bool) (magnitude : Nat)
  | decimal (negative : Bool) (significand : Nat) (exponent : Int)
  deriving DecidableEq, Repr

namespace Number

/-- A natural number as a text writes it. -/
def ofNat (n : Nat) : Number :=
  .integer false n

/-- The value of a number that stands for a non-negative integer. -/
def toWord? : Number → Option UInt64
  | integer false n => if n < UInt64.size then some (UInt64.ofNat n) else none
  | _ => none

/-- Whether a number stands for a negative integer. -/
def isNegativeInteger : Number → Bool
  | integer true n => 0 < n && n ≤ UInt64.size / 2
  | _ => false

theorem toWord?_ofNat (w : UInt64) : (ofNat w.toNat).toWord? = some w := by
  simp [ofNat, toWord?, w.toNat_lt]

/-- The leading digits of a number that fit 64 bits, and how many digits were cut off. -/
def leadingWord (n : Nat) : Nat × Nat :=
  if n < UInt64.size then (n, 0)
  else
    let (word, cut) := leadingWord (n / 10)
    (word, cut + 1)
termination_by n
decreasing_by
  have hword : 0 < UInt64.size := by decide
  omega

/-- `word * 10 ^ exponent` as a double, or nothing if it is too large. The word is rounded first and
then scaled, downward in steps of at most `10 ^ 308`. -/
def scale? (word : Nat) (exponent : Int) : Option Float :=
  let start := Float.ofNat word
  let power (k : Nat) := Float.ofScientific 1 false k
  if word = 0 then some 0
  else if 308 < exponent then none
  else if 0 ≤ exponent then
    let x := start * power exponent.toNat
    if x.isInf then none else some x
  else if -308 ≤ exponent then some (start / power (-exponent).toNat)
  else if -616 ≤ exponent then some (start / power 308 / power (-exponent - 308).toNat)
  else some 0

/-- The double that a number stands for, or nothing if it is too large. -/
def toFloat? : Number → Option Float
  | integer negative n => signed negative n 0
  | decimal negative significand exponent => signed negative significand exponent
where
  signed (negative : Bool) (significand : Nat) (exponent : Int) : Option Float :=
    let (word, cut) := leadingWord significand
    (scale? word (exponent + cut)).map fun x => if negative then -x else x

end Number

end LeastPrivilege.Json
