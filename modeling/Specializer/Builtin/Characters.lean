import Specializer.Builtin.Outcome

/-!
# Characters and their codes

`chr` and `ord`. In the older version characters are bytes, written as text while they are ASCII.
-/

namespace Specializer.Builtin

/-- The character with a given code. Surrogates are no characters here. -/
def chr (args : BoundArguments Constant) (version : Version) : Outcome := do
  let value ← args.getOrDecline 0
  match value.asInt? with
  | none => throw (.notAnInteger version value)
  | some n =>
    let code := n.toInt
    match version with
    | .python3 =>
      if code < 0 ∨ 0x110000 ≤ code then throw (.valueError "chr() arg not in range(0x110000)")
      else if code.toNat.isValidChar then return .str (String.singleton (Char.ofNat code.toNat))
      else throw .decline
    | .python2 =>
      if code < 0 ∨ 256 ≤ code then throw (.valueError "chr() arg not in range(256)")
      else if code < 128 then return .str (String.singleton (Char.ofNat code.toNat))
      else return .bytes [UInt8.ofNat code.toNat]

/-- The error for a string that does not hold exactly one character. -/
def notOneCharacter (length : Nat) : Fault :=
  .typeError s!"ord() expected a character, but string of length {length} found"

/-- The code of the only character of a string. -/
def ord (args : BoundArguments Constant) (version : Version) : Outcome := do
  match ← args.getOrDecline 0 with
  | .str s => match s.toList with
    | [c] => return .int (Int64.ofNat c.toNat)
    | chars => throw (notOneCharacter chars.length)
  | .bytes [b] => return .int (Int64.ofNat b.toNat)
  | .bytes bytes => throw (notOneCharacter bytes.length)
  | other => throw (.typeError s!"ord() expected string of length 1, but {other.typeName version} found")

end Specializer.Builtin
