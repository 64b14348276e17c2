import Specializer.Builtin.Outcome
import Specializer.Decimal.Reader
import Specializer.IntegerLiteral

/-!
# Numbers

`bin`, `oct` and `hex`, and the conversions `int`, `long`, `float` and `bool`. Texts and byte strings are read as
literals; a byte string that is no UTF-8 declines.
-/

namespace Specializer.Builtin

/-- The three ways an integer is written in a power of two. -/
inductive RadixStyle where
  | binary
  | octal
  | hexadecimal
  deriving DecidableEq, Repr

/-- The builtin that writes the radix. -/
def RadixStyle.name : RadixStyle → String
  | .binary => "bin"
  | .octal => "oct"
  | .hexadecimal => "hex"

/-- A magnitude in a radix. The older version marks octal by a zero alone. -/
def RadixStyle.render (version : Version) (n : Nat) : RadixStyle → String
  | .binary => "0b" ++ IntegerLiteral.digits 2 n
  | .octal => match version with
    | .python3 => "0o" ++ IntegerLiteral.digits 8 n
    | .python2 => if n = 0 then "0" else "0" ++ IntegerLiteral.digits 8 n
  | .hexadecimal => "0x" ++ IntegerLiteral.digits 16 n

/-- Whether a value is a long integer of the older version. -/
def isLong (version : Version) : Constant → Bool
  | .long _ => !version.isPython3
  | _ => false

/-- An integer in a radix. The older version marks long integers, but not in binary. -/
def inRadix (style : RadixStyle) (args : BoundArguments Constant) (version : Version) : Outcome := do
  let value ← args.getOrDecline 0
  match value.asInt? with
  | some n =>
    let sign := if n.toInt < 0 then "-" else ""
    let mark := if isLong version value && style ≠ .binary then "L" else ""
    return .str (sign ++ style.render version n.toInt.natAbs ++ mark)
  | none =>
    if version.isPython3 || style = .binary then throw (.notAnInteger version value)
    else throw (.typeError s!"{style.name}() argument can't be converted to {style.name}")

/-- The text of a value that is read as a literal, `none` for other values. -/
def literalText? : Constant → Option (Except Fault String)
  | .str s => some (.ok s)
  | .bytes b => match Text.Utf8.decode? b with
    | some s => some (.ok s)
    | none => some (.error .decline)
  | _ => none

/-- A number or its literal as a float. -/
def float (args : BoundArguments Constant) (version : Version) : Outcome := do
  match args.get? 0 with
  | none => return .float 0.0
  | some value =>
    match literalText? value with
    | none => match value.asFloat? with
      | some x => return .float x
      | none => match version with
        | .python3 =>
          throw (.typeError s!"float() argument must be a string or a number, not '{value.typeName version}'")
        | .python2 => throw (.typeError "float() argument must be a string or a number")
    | some text? =>
      let text ← text?
      let literal := Text.trim text.toList
      if literal.contains '_' || !Text.isAscii literal then throw .decline
      match Decimal.readFloat? literal with
      | some x => return .float x
      | none =>
        let shown := if version.isPython3 then value.render version else text
        throw (.valueError s!"could not convert string to float: {shown}")

/-- Whether a value counts as true. -/
def bool (args : BoundArguments Constant) (_ : Version) : Outcome :=
  return .bool (match args.get? 0 with
    | some value => value.isTruthy
    | none => false)

/-- The integer part of a float. -/
def truncate (x : Float) : Except Fault Int64 :=
  if x.isNaN then throw (.valueError "cannot convert float NaN to integer")
  else if x.isInf then throw (.raise ⟨.overflowError, "cannot convert float infinity to integer"⟩)
  else if x < -9223372036854775808.0 || x ≥ 9223372036854775808.0 then throw .decline
  else return x.toInt64

/-- The base of a literal, ten if none is given. -/
def literalBase (version : Version) (name : String) : Option Constant → Except Fault Nat
  | none => return 10
  | some base => match base.asInt? with
    | none => throw .decline
    | some n =>
      let n := n.toInt
      if n = 0 ∨ (2 ≤ n ∧ n ≤ 36) then return n.toNat
      else match version with
        | .python3 => throw (.valueError s!"{name}() base must be >= 2 and <= 36, or 0")
        | .python2 => throw (.valueError s!"{name}() base must be >= 2 and <= 36")

/-- The integer a number, or a literal in a given base, stands for. -/
def toInteger (name : String) (args : BoundArguments Constant) (version : Version) : Except Fault Int64 := do
  let base? := args.get? 1
  match args.get? 0 with
  | none => if base?.isNone then return 0 else throw .decline
  | some value =>
    match literalText? value with
    | some text? =>
      let text ← text?
      let base ← literalBase version name base?
      match IntegerLiteral.read version base text with
      | .value n => return n
      | .undecided => throw .decline
      | .malformed =>
        throw (.valueError s!"invalid literal for {name}() with base {base}: {value.render version}")
    | none =>
      if base?.isSome then throw (.typeError s!"{name}() can't convert non-string with explicit base")
      match value with
      | .float x => truncate x
      | _ => match value.asInt? with
        | some n => return n
        | none =>
          let accepted := if version.isPython3 then "a string, a bytes-like object or a number"
            else "a string or a number"
          throw (.typeError s!"{name}() argument must be {accepted}, not '{value.typeName version}'")

/-- The integer a value stands for. -/
def int (args : BoundArguments Constant) (version : Version) : Outcome :=
  return .int (← toInteger "int" args version)

/-- The long integer a value stands for. -/
def long (args : BoundArguments Constant) (version : Version) : Outcome :=
  return .long (← toInteger "long" args version)

end Specializer.Builtin
