import Specializer.Text.Blank
import Specializer.Version

/-!
# Integer literals

Reading the text of an integer in a given base, and writing one in a given radix. A literal is an optional sign, an
optional prefix that suits the base, and one or more digits. Base zero takes the radix from the prefix; without one
the literal is decimal, except that a leading zero makes it octal in the older version and is only allowed for zero in
the newer one.
-/

namespace Specializer.IntegerLiteral

/-- The value of a lower-case digit or letter. -/
def digitValue? (c : Char) : Option Nat :=
  if '0' ≤ c ∧ c ≤ '9' then some (c.toNat - 48)
  else if 'a' ≤ c ∧ c ≤ 'z' then some (c.toNat - 87)
  else none

/-- The value of a digit below the radix. -/
def digitBelow? (radix : Nat) (c : Char) : Option Nat := (digitValue? c).filter (· < radix)

/-- The number the digits denote after those that gave `n`. -/
def valueFrom? (radix : Nat) (n : Nat) : List Char → Option Nat
  | [] => some n
  | c :: rest => match digitBelow? radix c with
    | some d => valueFrom? radix (radix * n + d) rest
    | none => none

/-- The number a non-empty string of digits denotes. -/
def value? (radix : Nat) (digits : List Char) : Option Nat :=
  if digits.isEmpty then none else valueFrom? radix 0 digits

/-- The radix and the digits of an unsigned lower-case literal, `none` for a leading zero that is not allowed. -/
def radixOf? (version : Version) (base : Nat) (literal : List Char) : Option (Nat × List Char) :=
  match base, literal with
  | 0, '0' :: 'x' :: digits => some (16, digits)
  | 0, '0' :: 'o' :: digits => some (8, digits)
  | 0, '0' :: 'b' :: digits => some (2, digits)
  | 0, '0' :: c :: rest =>
    match version with
    | .python2 => some (8, c :: rest)
    | .python3 => if (c :: rest).all (· == '0') then some (10, literal) else none
  | 0, _ => some (10, literal)
  | 16, '0' :: 'x' :: digits => some (16, digits)
  | 8, '0' :: 'o' :: digits => some (8, digits)
  | 2, '0' :: 'b' :: digits => some (2, digits)
  | _, _ => some (base, literal)

/-- An optional sign in front: whether it is a minus, and the rest. -/
def splitSign : List Char → Bool × List Char
  | '-' :: rest => (true, rest)
  | '+' :: rest => (false, rest)
  | literal => (false, literal)

/-- The integer a trimmed ASCII literal denotes, of any size. -/
def integer? (version : Version) (base : Nat) (literal : List Char) : Option Int := do
  let (negative, unsigned) := splitSign literal
  let (radix, digits) ← radixOf? version base (unsigned.map Char.toLower)
  let magnitude ← value? radix digits
  return if negative then -(magnitude : Int) else magnitude

/-- The outcome of reading a literal. -/
inductive Reading where
  | value (n : Int64)
  /-- The text may denote an integer, but not one that can be told here: it is out of range, or it uses digits or
  separators that only the running program accepts. -/
  | undecided
  | malformed
  deriving DecidableEq, Repr

/-- Whether an integer fits 64 bits with a sign. -/
def fits (n : Int) : Bool := Int64.minValue.toInt ≤ n && n ≤ Int64.maxValue.toInt

/-- Reads a literal with blanks around it. -/
def read (version : Version) (base : Nat) (text : String) : Reading :=
  let literal := Text.trim text.toList
  if literal.contains '_' || !Text.isAscii literal then .undecided
  else match integer? version base literal with
    | none => .malformed
    | some n => if fits n then .value (Int64.ofInt n) else .undecided

/-- The digits of a natural number in a radix of at most sixteen. -/
def digits (radix n : Nat) : String := String.ofList (Nat.toDigits radix n)

end Specializer.IntegerLiteral
