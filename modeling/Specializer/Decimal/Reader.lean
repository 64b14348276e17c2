import Specializer.Decimal.Shortest

/-!
# Reading floating-point numbers

The texts of floating-point numbers: an optional sign, then `inf`, `infinity` or `nan` in any case, or digits with at
most one point and at least one digit, and an optional exponent with at least one digit. The value is the double
nearest to the decimal, the even one halfway.
-/

namespace Specializer.Decimal

/-- Divides and rounds to the nearest integer, halfway to the even one. -/
def roundDiv (n d : Nat) : Nat :=
  let q := n / d
  let r := n % d
  if 2 * r < d then q
  else if d < 2 * r then q + 1
  else if q % 2 = 0 then q else q + 1

/-- The bits of the double nearest to `n / d`, without a sign; too large a number gives infinity. -/
def nearestBits (n d : Nat) : UInt64 :=
  if n = 0 then 0
  else
    let estimate : Int := (n.log2 : Int) - (d.log2 : Int)
    let log : Int := if d * Nat.pow 2 estimate.toNat ≤ n * Nat.pow 2 (-estimate).toNat then estimate
      else estimate - 1
    let power : Int := max (log - 52) (-1074)
    let rounded := roundDiv (n * Nat.pow 2 (-power).toNat) (d * Nat.pow 2 power.toNat)
    let stored := rounded + (power + 1074).toNat * Binary64.binade
    UInt64.ofNat (min stored (2047 * Binary64.binade))

/-- The bits of infinity. -/
def infinityBits : UInt64 := 0x7ff0000000000000

/-- A double from its bits without a sign. -/
def withSign (negative : Bool) (bits : UInt64) : Float :=
  Float.ofBits (if negative then bits ||| 0x8000000000000000 else bits)

/-- The double nearest to `significand · 10^exponent`. Powers far outside the range of doubles are cut off first. -/
def nearest (negative : Bool) (significand : Nat) (exponent : Int) : Float :=
  let count : Int := (Nat.toDigits 10 significand).length
  let bits :=
    if significand = 0 ∨ count + exponent < -400 then 0
    else if 400 < count + exponent then infinityBits
    else nearestBits (significand * Nat.pow 10 exponent.toNat) (Nat.pow 10 (-exponent).toNat)
  withSign negative bits

/-- The value of decimal digits, zero for none. -/
def natOfChars (cs : List Char) : Nat := cs.foldl (fun n c => 10 * n + (c.toNat - 48)) 0

/-- An optional sign in front: whether it is a minus, and the rest. -/
def splitSign : List Char → Bool × List Char
  | '-' :: rest => (true, rest)
  | '+' :: rest => (false, rest)
  | cs => (false, cs)

/-- The exponent after its mark. -/
def readExponent? (cs : List Char) : Option Int :=
  let (negative, digits) := splitSign cs
  if digits.isEmpty || !digits.all Char.isDigit then none
  else
    let n : Int := natOfChars digits
    some (if negative then -n else n)

/-- An unsigned number: digits, a point, digits, an exponent. -/
def readUnsigned? (negative : Bool) (cs : List Char) : Option Float :=
  let whole := cs.takeWhile Char.isDigit
  let afterWhole := cs.dropWhile Char.isDigit
  let (fraction, afterFraction) := match afterWhole with
    | '.' :: rest => (rest.takeWhile Char.isDigit, rest.dropWhile Char.isDigit)
    | rest => ([], rest)
  if whole.isEmpty && fraction.isEmpty then none
  else
    let exponent? := match afterFraction with
      | [] => some 0
      | mark :: rest => if mark = 'e' ∨ mark = 'E' then readExponent? rest else none
    exponent?.map fun exponent =>
      nearest negative (natOfChars (whole ++ fraction)) (exponent - fraction.length)

/-- The double a text denotes. -/
def readFloat? (cs : List Char) : Option Float :=
  let (negative, rest) := splitSign cs
  let word := String.ofList (rest.map Char.toLower)
  if word = "inf" ∨ word = "infinity" then some (withSign negative infinityBits)
  else if word = "nan" then some (Float.ofBits 0x7ff8000000000000)
  else readUnsigned? negative rest

end Specializer.Decimal
