import FilterTree.Numeric.Decimal

/-!
# Double-precision numbers

The finite numbers of 64-bit binary floating point. A number is a sign and a *rank*: its place in
the list of all magnitudes, from zero upwards, so magnitudes compare as their ranks do. Ranks below
`2 ^ 52` are whole multiples of `2 ^ -1074`; after that each block of `2 ^ 52` ranks has twice the
spacing of the one before.

Everything here is exact arithmetic on whole numbers: `Decimal.toDouble?` rounds a decimal number to
the nearest double, and `Double.shortest` gives the shortest decimal number that rounds back.
-/

namespace FilterTree

/-- A finite double. Rank `2047 * 2 ^ 52` would be infinity. -/
structure Double where
  negative : Bool
  rank : Nat
  finite : rank < 2047 * Nat.pow 2 52
deriving DecidableEq, Repr

namespace Double

/-- Zero, with a sign. -/
def zero (negative : Bool) : Double := ⟨negative, 0, by decide⟩

/-- The magnitude is `significand * 2 ^ exponent`. -/
def significand (d : Double) : Nat :=
  if d.rank < Nat.pow 2 52 then d.rank else Nat.pow 2 52 + d.rank % Nat.pow 2 52

/-- The power of two that the significand counts. -/
def exponent (d : Double) : Int :=
  if d.rank < Nat.pow 2 52 then -1074 else (d.rank / Nat.pow 2 52 : Nat) - 1075

/-- Equality of the numbers themselves: the two zeros are equal. -/
def equiv (a b : Double) : Bool :=
  a.rank == b.rank && (a.negative == b.negative || a.rank == 0)

/-! ## Rounding to a double -/

/-- The greatest `e` with `2 ^ e ≤ n / d`, for positive `n` and `d`. -/
def leadingExponent (n d : Nat) : Int :=
  -- the logarithms of `n` and `d` give it up to one
  let e : Int := (n.log2 : Int) - d.log2
  if d * Nat.pow 2 e.toNat ≤ n * Nat.pow 2 (-e).toNat then e else e - 1

/-- The rank nearest to `n / d`, a tie going to the even one. A significand that rounds up to the
next power of two carries into the block above by itself. -/
def nearestRank (n d : Nat) : Nat :=
  if n = 0 then 0
  else
    -- 53 bits are kept, fewer where the spacing is already the least
    let step := max (leadingExponent n d - 52) (-1074)
    (step + 1074).toNat * Nat.pow 2 52 +
      roundHalfEven (n * Nat.pow 2 (-step).toNat) (d * Nat.pow 2 step.toNat)

/-- The double nearest to `n / d`, if that is finite. -/
def nearest? (negative : Bool) (n d : Nat) : Option Double :=
  let rank := nearestRank n d
  if h : rank < 2047 * Nat.pow 2 52 then some ⟨negative, rank, h⟩ else none

end Double

/-- The double nearest to a decimal number with a sign, if that is finite. Numbers of `10 ^ 309` and
more are infinite and those below `10 ^ -325` are zero, whatever their digits; deciding them first
keeps the powers of ten small. -/
def Decimal.toDouble? (negative : Bool) (d : Decimal) : Option Double :=
  if d.digits = 0 ∨ d.magnitude < -325 then some (.zero negative)
  else if 308 < d.magnitude then none
  else
    Double.nearest? negative (d.digits * Nat.pow 10 d.exponent.toNat)
      (Nat.pow 10 (-d.exponent).toNat)

/-! ## The shortest decimal number -/

/-- The numbers that round to one magnitude: those between `low / scale` and `high / scale`, the
magnitude itself being `mid / scale`. The ends belong to it if it is `closed`. -/
structure Double.Interval where
  low : Nat
  mid : Nat
  high : Nat
  scale : Nat
  closed : Bool

namespace Double

/-- The numbers that round to the magnitude of `d`: half a spacing on each side, but only a quarter
below the least significand of a block, where the spacing changes. A tie goes to the even rank. -/
def interval (d : Double) : Interval :=
  let below := if d.rank % Nat.pow 2 52 = 0 ∧ Nat.pow 2 53 ≤ d.rank then 1 else 2
  let power := d.exponent - 2
  let unit := Nat.pow 2 power.toNat
  { low := (4 * d.significand - below) * unit
    mid := 4 * d.significand * unit
    high := (4 * d.significand + 2) * unit
    scale := Nat.pow 2 (-power).toNat
    closed := d.rank % 2 == 0 }

namespace Interval

/-- Whether `n * 10 ^ e` is one of the numbers. -/
def contains (i : Interval) (n : Nat) (e : Int) : Bool :=
  let point := n * Nat.pow 10 e.toNat * i.scale
  let low := i.low * Nat.pow 10 (-e).toNat
  let high := i.high * Nat.pow 10 (-e).toNat
  if i.closed then low ≤ point && point ≤ high else low < point && point < high

/-- The magnitude in units of `10 ^ e`, as a numerator and a denominator. -/
def units (i : Interval) (e : Int) : Nat × Nat :=
  (i.mid * Nat.pow 10 (-e).toNat, Nat.pow 10 e.toNat * i.scale)

/-- The multiple of `10 ^ e` among the numbers that is nearest to the magnitude, if one of the two
multiples around the magnitude is among them. -/
def multiple? (i : Interval) (e : Int) : Option Nat :=
  let (n, d) := i.units e
  let floor := n / d
  match i.contains floor e, i.contains (floor + 1) e with
  | true, true => some (roundHalfEven n d)
  | true, false => some floor
  | false, true => some (floor + 1)
  | false, false => none

/-- The coarsest decimal grid with a point among the numbers, from `10 ^ (k - 324)` downwards. The
finest grid always has one, its spacing being below that of the doubles. -/
def coarsest (i : Interval) : Nat → Decimal
  | 0 => ⟨roundHalfEven (i.units (-324)).1 (i.units (-324)).2, -324⟩
  | k + 1 =>
    match i.multiple? ((k + 1 : Nat) - 324) with
    | some n => ⟨n, (k + 1 : Nat) - 324⟩
    | none => i.coarsest k

end Interval

/-- The shortest decimal number that rounds to the magnitude of `d`, and of those the nearest. The
search starts at `10 ^ 308`, above which there is no double. -/
def shortest (d : Double) : Decimal :=
  if d.rank = 0 then ⟨0, 0⟩ else d.interval.coarsest 632

end Double

end FilterTree
