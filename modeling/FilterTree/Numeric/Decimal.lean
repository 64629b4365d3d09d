/-!
# Decimal numbers

A decimal number as whole digits and a power of ten, and the layout of its text. `Decimal.text` is
positional for the exponents that a `Layout` names and scientific for the others.
-/

namespace FilterTree

/-- The number `digits * 10 ^ exponent`. -/
structure Decimal where
  digits : Nat
  exponent : Int
deriving DecidableEq, Repr

/-- `n / d` to the nearest whole number; a half goes to the even neighbour. -/
def roundHalfEven (n d : Nat) : Nat :=
  if 2 * (n % d) < d ∨ 2 * (n % d) = d ∧ n / d % 2 = 0 then n / d else n / d + 1

namespace Decimal

/-- The decimal digits of `n`, the leading one first. -/
def digitsOf (n : Nat) : List Char := Nat.toDigits 10 n

/-- The value of one decimal digit. -/
def digitValue (c : Char) : Nat := c.toNat - '0'.toNat

/-- The number that a string of decimal digits stands for. -/
def ofDigits (cs : List Char) : Nat := cs.foldl (fun n c => 10 * n + digitValue c) 0

/-- The power of ten of the leading digit. -/
def magnitude (d : Decimal) : Int := d.exponent + (digitsOf d.digits).length - 1

/-- The leading-digit exponents that are written positionally. All others are written with one
digit before the point and an exponent that always has its sign. -/
structure Layout where
  lowest : Int
  highest : Int
deriving DecidableEq, Repr

/-- Positional text. It always has a fraction: a whole number ends in `.0`. -/
def positional (d : Decimal) : List Char :=
  let ds := digitsOf d.digits
  let whole := d.exponent + ds.length
  if 0 ≤ d.exponent then ds ++ List.replicate d.exponent.toNat '0' ++ ['.', '0']
  -- the point falls among the digits, or before all of them
  else if 0 < whole then ds.take whole.toNat ++ '.' :: ds.drop whole.toNat
  else '0' :: '.' :: List.replicate (-whole).toNat '0' ++ ds

/-- Scientific text; a lone leading digit has no point after it. -/
def scientific (d : Decimal) : List Char :=
  let mantissa := match digitsOf d.digits with
    | [] => []
    | [c] => [c]
    | c :: cs => c :: '.' :: cs
  let sign := if d.magnitude < 0 then '-' else '+'
  mantissa ++ 'e' :: sign :: digitsOf d.magnitude.natAbs

/-- The text of a decimal number in the given layout. -/
def text (layout : Layout) (d : Decimal) : List Char :=
  if layout.lowest ≤ d.magnitude ∧ d.magnitude ≤ layout.highest then d.positional
  else d.scientific

end Decimal

end FilterTree
