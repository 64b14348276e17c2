/-!
# Decimal numbers and their layout

A decimal number is a sign, a string of digits and the power of ten of its first digit. Its text is positional while
that power lies between `-4` and `15`, and uses an exponent of at least two digits outside; positional text always
shows a point with a digit on either side.
-/

namespace Specializer

/-- A decimal number `±d.ddd · 10^exponent`; the digits are listed from the first one on. -/
structure Decimal where
  negative : Bool
  digits : List (Fin 10)
  exponent : Int
  deriving DecidableEq, Repr

namespace Decimal

/-- The character of a digit. -/
def digitChar (d : Fin 10) : Char := Char.ofNat (48 + d.val)

/-- The characters of a string of digits. -/
def digitChars (ds : List (Fin 10)) : List Char := ds.map digitChar

/-- The value of a string of digits. -/
def natOfDigits (ds : List (Fin 10)) : Nat := ds.foldl (fun n d => 10 * n + d.val) 0

/-- The digits of a natural number, `0` for zero. -/
def digitsOfNat (n : Nat) : List (Fin 10) := (Nat.toDigits 10 n).map fun c => Fin.ofNat 10 (c.toNat - 48)

/-- Whether a power of ten of the first digit is written with an exponent. -/
def usesExponent (exponent : Int) : Bool := exponent < -4 || 16 ≤ exponent

/-- The exponent mark, a sign and at least two digits. -/
def exponentText (exponent : Int) : List Char :=
  let magnitude := Nat.toDigits 10 exponent.natAbs
  'e' :: (if exponent < 0 then '-' else '+') :: (if magnitude.length < 2 then '0' :: magnitude else magnitude)

/-- The text without its sign. -/
def layout (digits : List (Fin 10)) (exponent : Int) : List Char :=
  if usesExponent exponent then
    match digitChars digits with
    | [] => exponentText exponent
    | [d] => d :: exponentText exponent
    | d :: rest => d :: '.' :: rest ++ exponentText exponent
  else if exponent < 0 then
    '0' :: '.' :: List.replicate (exponent.natAbs - 1) '0' ++ digitChars digits
  else
    let point := exponent.toNat + 1
    if digits.length > point then
      digitChars (digits.take point) ++ '.' :: digitChars (digits.drop point)
    else
      digitChars digits ++ List.replicate (point - digits.length) '0' ++ ['.', '0']

/-- The text of a decimal number. -/
def render (d : Decimal) : String :=
  String.ofList ((if d.negative then ['-'] else []) ++ layout d.digits d.exponent)

end Decimal

end Specializer
