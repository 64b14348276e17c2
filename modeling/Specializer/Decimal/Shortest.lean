import Specializer.Decimal.Basic

/-!
# Shortest decimals of floating-point numbers

A finite double is `m · 2^q`. The reals that round to it form an interval, which holds its ends iff `m` is even. The
shortest decimal of the number is the coarsest decimal grid with a point in that interval, and of the number's two
neighbours on that grid the nearer one; halfway between them, the larger.
-/

namespace Specializer

/-- A finite non-zero double without its sign: `significand · 2^exponent`. -/
structure Binary64 where
  significand : Nat
  exponent : Int
  deriving DecidableEq, Repr

namespace Binary64

/-- The values of the fraction field number `2^52`; a normal significand starts there. -/
def binade : Nat := 0x10000000000000

/-- The fraction field. -/
def fractionBits (bits : UInt64) : Nat := bits.toNat % binade

/-- The exponent field, eleven bits wide. -/
def exponentBits (bits : UInt64) : Nat := bits.toNat / binade % 2048

/-- The sign bit. -/
def isNegative (bits : UInt64) : Bool := bits.toNat / binade / 2048 % 2 == 1

/-- The number behind the bits of a finite double. -/
def ofBits (bits : UInt64) : Binary64 :=
  let fraction := fractionBits bits
  let stored := exponentBits bits
  if stored = 0 then ⟨fraction, -1074⟩ else ⟨binade + fraction, (stored : Int) - 1075⟩

/-- Whether the next smaller double is only half as far away as the next larger one. -/
def atBinade (b : Binary64) : Bool := b.significand == binade && -1074 < b.exponent

end Binary64

/-- A value with the ends of the interval that rounds to it, over one denominator. -/
structure RoundingInterval where
  value : Nat
  low : Nat
  high : Nat
  denominator : Nat
  closed : Bool
  deriving DecidableEq, Repr

namespace RoundingInterval

/-- The interval of the reals that round to a number. -/
def ofBinary64 (b : Binary64) : RoundingInterval :=
  let scale := b.exponent - 2
  let unit := Nat.pow 2 scale.toNat
  let four := 4 * b.significand
  { value := four * unit
    low := (four - if b.atBinade then 1 else 2) * unit
    high := (four + 2) * unit
    denominator := Nat.pow 2 (-scale).toNat
    closed := b.significand % 2 == 0 }

/-- Whether the fraction `n / d` lies in the interval. -/
def contains (i : RoundingInterval) (n d : Nat) : Bool :=
  if i.closed then i.low * d ≤ n * i.denominator && n * i.denominator ≤ i.high * d
  else i.low * d < n * i.denominator && n * i.denominator < i.high * d

/-- The power of ten of the first digit of the value. -/
def magnitude (i : RoundingInterval) : Int :=
  if i.denominator ≤ i.value then ((Nat.toDigits 10 (i.value / i.denominator)).length : Int) - 1
  else -((Nat.toDigits 10 (i.denominator / i.value)).length : Int)

/-- The neighbour of the value on the grid of multiples of `10^power` that lies in the interval, in units of the
grid: the nearer one if both do, the upper one halfway. -/
def onGrid (i : RoundingInterval) (power : Int) : Option Nat :=
  let up := Nat.pow 10 power.toNat
  let down := Nat.pow 10 (-power).toNat
  let n := i.value * down
  let d := i.denominator * up
  let below := n / d
  let above := below + 1
  match i.contains (below * up) down, i.contains (above * up) down with
  | true, true => if 2 * (n % d) < d then some below else some above
  | true, false => some below
  | false, true => some above
  | false, false => none

/-- The first grid with a hit among those with `count`, `count + 1`, … digits, at most `fuel` of them. -/
def search (i : RoundingInterval) (magnitude : Int) : Nat → Nat → Nat × Int
  | 0, _ => (0, 0)
  | fuel + 1, count =>
    let power := magnitude - count + 1
    match i.onGrid power with
    | some n => (n, power)
    | none => search i magnitude fuel (count + 1)

end RoundingInterval

namespace Decimal

/-- Drops the zeros at the end. -/
def dropTrailingZeros (ds : List (Fin 10)) : List (Fin 10) := (ds.reverse.dropWhile fun d => d.val == 0).reverse

/-- The shortest decimal that reads back as a finite non-zero double; seventeen digits always suffice. -/
def shortest (bits : UInt64) : Decimal :=
  let interval := RoundingInterval.ofBinary64 (Binary64.ofBits bits)
  let (n, power) := interval.search interval.magnitude 17 1
  let digits := digitsOfNat n
  { negative := Binary64.isNegative bits
    digits := dropTrailingZeros digits
    exponent := power + digits.length - 1 }

/-- The text of a double: the shortest decimal for finite numbers, and a point also for zero. -/
def renderFloat (x : Float) : String :=
  let bits := x.toBits
  if Binary64.exponentBits bits = 2047 then
    if Binary64.fractionBits bits ≠ 0 then "nan"
    else if Binary64.isNegative bits then "-inf" else "inf"
  else if Binary64.exponentBits bits = 0 ∧ Binary64.fractionBits bits = 0 then
    if Binary64.isNegative bits then "-0.0" else "0.0"
  else (shortest bits).render

/-- The digits of a text before its exponent mark, zeros in front not counted. -/
def significantDigits (text : String) : Nat :=
  ((text.toList.takeWhile (· != 'e')).filter Char.isDigit |>.dropWhile (· == '0')).length

end Decimal

end Specializer
