import LeastPrivilege.Decimal.Dyadic
import LeastPrivilege.Text.Numeral

/-!
# Decimals with a fixed number of places

The nearest decimal with a given number of places; of two equally near ones, the one whose last
digit is even.
-/

namespace LeastPrivilege.Decimal

/-- The integer nearest to a quotient; a half goes to the even neighbour. -/
def roundDiv (num den : Nat) : Nat :=
  if 2 * (num % den) < den ∨ 2 * (num % den) = den ∧ num / den % 2 = 0 then num / den
  else num / den + 1

/-- The digits of a number, with zeros in front up to a given length. -/
def padded (width n : Nat) : List Char :=
  let digits := Text.numeral n
  List.replicate (width - digits.length) '0' ++ digits

/-- `n / 10 ^ places` with its decimal point. -/
def withPoint (places n : Nat) : List Char :=
  Text.numeral (n / Nat.pow 10 places) ++ '.' :: padded places (n % Nat.pow 10 places)

/-- The decimal of `places` places nearest to a finite double. -/
def fixed (places : Nat) (x : Float) : String :=
  let (num, den) := (Dyadic.ofFloat x).scaled ((Dyadic.ofFloat x).significand * Nat.pow 10 places)
  let sign := if isNegative x then ['-'] else []
  String.ofList (sign ++ withPoint places (roundDiv num den))

/-- A rounded quotient is within half a unit. -/
theorem roundDiv_near (num den : Nat) (h : 0 < den) :
    2 * num ≤ 2 * roundDiv num den * den + den ∧ 2 * roundDiv num den * den ≤ 2 * num + den := by
  have hdiv := Nat.div_add_mod num den
  have hmod := Nat.mod_lt num h
  have hcomm : den * (num / den) = num / den * den := Nat.mul_comm _ _
  unfold roundDiv
  split
  · rename_i hlt
    rw [Nat.mul_assoc]
    constructor <;> omega
  · rename_i hge
    have hsucc : (num / den + 1) * den = num / den * den + den := Nat.succ_mul _ _
    rw [Nat.mul_assoc]
    constructor <;> omega

end LeastPrivilege.Decimal
