import LeastPrivilege.Decimal.Fixed

/-!
# The shortest decimal of a double

Of all decimals that read back as a given double, the one with the fewest digits; of those, the one
nearest to the double; of two equally near ones, the one whose last digit is even. A decimal that is
neither very large nor very small is written out with its point, and any other with an exponent.
-/

namespace LeastPrivilege.Decimal

/-- The reals that read back as a double, in quarters of its unit in the last place: the double
itself, the two ends, and whether the ends belong to it. -/
structure ReadBack where
  value : Nat
  low : Nat
  high : Nat
  closed : Bool

/-- The reals nearest to a double. Below a power of two the doubles lie twice as dense. -/
def ReadBack.ofDyadic (d : Dyadic) : ReadBack where
  value := 4 * d.significand
  low := 4 * d.significand - if d.isPowerOfTwo then 1 else 2
  high := 4 * d.significand + 2
  closed := d.significand % 2 == 0

/-- The number of digits in front of the point of `num / den`; not positive when the quotient is
below one tenth. Numerators below `den * 10 ^ -fuel` are out of reach. -/
def wholeDigits (num den : Nat) : Nat → Int
  | 0 => 0
  | fuel + 1 =>
    if den ≤ num then (Text.numeral (num / den)).length
    else if den ≤ 10 * num then 0
    else wholeDigits (10 * num) den fuel - 1

/-- The point of the grid `10 ^ exponent` nearest to a double among those that read back as it. Of
two equally near points it is the even one. -/
def gridPoint? (d : Dyadic) (exponent : Int) : Option Nat :=
  let interval := ReadBack.ofDyadic d
  let up := Nat.pow 10 (-exponent).toNat
  let (unit, den) := d.scaled 1
  let den := 4 * den * Nat.pow 10 exponent.toNat
  let at_ (n : Nat) := n * unit * up
  let inside (c : Nat) : Bool :=
    if interval.closed then at_ interval.low ≤ c * den && c * den ≤ at_ interval.high
    else at_ interval.low < c * den && c * den < at_ interval.high
  let below := at_ interval.value / den
  let above := below + 1
  match inside below, inside above with
  | true, true => some (roundDiv (at_ interval.value) den)
  | true, false => some below
  | false, true => some above
  | false, false => none

/-- The shortest decimal of a double, as an integer and a power of ten, with at most as many digits
as the fuel allows beyond those tried. A point that is rounded up to the next power of ten has one
digit. -/
def searchDigits (d : Dyadic) (whole : Int) (digits : Nat) : Nat → Nat × Int
  | 0 => (0, 0)
  | fuel + 1 =>
    match gridPoint? d (whole - digits) with
    | some c => if c = Nat.pow 10 digits then (1, whole) else (c, whole - digits)
    | none => searchDigits d whole (digits + 1) fuel

/-- The shortest decimal of a finite double as an integer and a power of ten. Seventeen digits are
always enough. -/
def shortestDigits (d : Dyadic) : Nat × Int :=
  if d.significand = 0 then (0, 0)
  else
    let (num, den) := d.scaled d.significand
    searchDigits d (wholeDigits num den 330) 1 17

/-- `c * 10 ^ exponent` with its decimal point. A whole number keeps one place. -/
def positional (c : Nat) (exponent : Int) : List Char :=
  if 0 ≤ exponent then Text.numeral (c * Nat.pow 10 exponent.toNat) ++ ['.', '0']
  else withPoint (-exponent).toNat c

/-- The digits of a decimal and the power of ten of the first of them. The point stands behind the
first digit, and is left out behind a single one. -/
def scientific (digits : List Char) (power : Int) : List Char :=
  let rest := digits.drop 1
  let sign := if power < 0 then '-' else '+'
  digits.take 1 ++ (if rest.isEmpty then [] else '.' :: rest) ++ 'e' :: sign ::
    Text.numeral power.natAbs

/-- Whether a decimal whose first digit stands for a given power of ten is written without an
exponent: it starts at the fifth place or before, with at most sixteen digits before its point. -/
def isPositional (power : Int) : Bool :=
  -5 ≤ power && power ≤ 15

/-- The text of the shortest decimal of a finite double. -/
def shortest (x : Float) : String :=
  let (c, exponent) := shortestDigits (Dyadic.ofFloat x)
  let digits := Text.numeral c
  let power := exponent + digits.length - 1
  let sign := if isNegative x then ['-'] else []
  let body := if isPositional power then positional c exponent else scientific digits power
  String.ofList (sign ++ body)

end LeastPrivilege.Decimal
