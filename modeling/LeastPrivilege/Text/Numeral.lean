/-!
# Decimal numerals

Natural numbers written in base ten: printing, reading, and reading of a numeral that has to fit a
word of 64 bits.
-/

namespace LeastPrivilege.Text

/-- The decimal digits of a number, without leading zeros. -/
def numeral (n : Nat) : List Char :=
  Nat.toDigits 10 n

/-- The value of a non-empty run of decimal digits; leading zeros are allowed. -/
def natOfDigits? (cs : List Char) : Option Nat :=
  if cs ≠ [] ∧ cs.all Char.isDigit then some (Nat.ofDigitChars 10 cs 0) else none

/-- The value of a numeral below `2 ^ 64`, which may carry one plus sign. -/
def wordOfNumeral? (cs : List Char) : Option Nat :=
  let digits := match cs with
    | '+' :: rest => rest
    | _ => cs
  (natOfDigits? digits).filter (· < UInt64.size)

theorem isDigit_of_mem_numeral {n : Nat} {c : Char} (h : c ∈ numeral n) : c.isDigit = true :=
  Nat.isDigit_of_mem_toDigits (by decide) (by decide) h

end LeastPrivilege.Text
