/-!
# Doubles as dyadic fractions

A finite double of 64 bits is an integer times a power of two. Exact decimal printing starts from
that pair.
-/

namespace LeastPrivilege.Decimal

/-- The size of a finite double: `significand * 2 ^ exponent`. -/
structure Dyadic where
  significand : Nat
  exponent : Int
  deriving DecidableEq, Repr

namespace Dyadic

/-- The size of a double, read off its 64 bits. -/
def ofFloat (x : Float) : Dyadic :=
  let bits := x.toBits.toNat
  let fraction : Nat := bits % Nat.pow 2 52
  let scale : Nat := bits / Nat.pow 2 52 % Nat.pow 2 11
  if scale = 0 then ⟨fraction, -1074⟩ else ⟨Nat.pow 2 52 + fraction, (scale : Int) - 1075⟩

/-- Whether the double below it lies at half the distance of the double above it. -/
def isPowerOfTwo (d : Dyadic) : Bool :=
  d.significand == Nat.pow 2 52 && -1074 < d.exponent

/-- `n * 2 ^ exponent` as a quotient of natural numbers. -/
def scaled (d : Dyadic) (n : Nat) : Nat × Nat :=
  (n * Nat.pow 2 d.exponent.toNat, Nat.pow 2 (-d.exponent).toNat)

end Dyadic

/-- Whether a double carries the minus sign, as `-0.0` does. -/
def isNegative (x : Float) : Bool :=
  x.toBits.toNat.testBit 63

end LeastPrivilege.Decimal
