import Specializer.Version

/-!
# Quoted literals

How texts and byte strings are written as literals. A literal uses single quotes unless the content holds a single
quote and no double quote. Backslash, newline, carriage return, tab and the quote itself are escaped by a backslash;
other control characters are written as `\xNN`. Text outside ASCII depends on the version: the older one writes the
bytes of its UTF-8 form, the newer one writes the C1 controls as `\xNN` and everything else as it is.
-/

namespace Specializer.Text

/-- The quote around a content that holds a single quote, a double quote, both or none. -/
def quoteFor (single double : Bool) : Char := if single && !double then '"' else '\''

/-- A value below 16 as a lower-case hexadecimal digit. -/
def hexDigit (n : Nat) : Char := Nat.digitChar n

/-- The escape `\xNN` with two lower-case hexadecimal digits. -/
def hexEscape (n : Nat) : List Char := ['\\', 'x', hexDigit (n / 16), hexDigit (n % 16)]

/-- One character inside a text literal. -/
def quoteChar (version : Version) (quote c : Char) : List Char :=
  if c = '\\' then ['\\', '\\']
  else if c = '\n' then ['\\', 'n']
  else if c = '\r' then ['\\', 'r']
  else if c = '\t' then ['\\', 't']
  else if c = quote then ['\\', c]
  else if c.toNat < 0x20 || c.toNat == 0x7f then hexEscape c.toNat
  else if c.toNat < 0x7f then [c]
  else match version with
    | .python2 => (String.utf8EncodeChar c).flatMap fun b => hexEscape b.toNat
    | .python3 => if c.toNat < 0xa0 then hexEscape c.toNat else [c]

/-- A text as a literal. -/
def quoteText (version : Version) (s : String) : String :=
  let chars := s.toList
  let quote := quoteFor (chars.contains '\'') (chars.contains '"')
  String.ofList (quote :: (chars.flatMap (quoteChar version quote) ++ [quote]))

/-- One byte inside a byte literal. -/
def quoteByte (quote : Char) (b : UInt8) : List Char :=
  let c := Char.ofNat b.toNat
  if c = '\\' then ['\\', '\\']
  else if c = '\n' then ['\\', 'n']
  else if c = '\r' then ['\\', 'r']
  else if c = '\t' then ['\\', 't']
  else if c = quote then ['\\', c]
  else if 0x20 ≤ b && b ≤ 0x7e then [c]
  else hexEscape b.toNat

/-- A byte string as a literal, without the leading `b`. -/
def quoteBytes (bytes : List UInt8) : String :=
  let quote := quoteFor (bytes.contains 0x27) (bytes.contains 0x22)
  String.ofList (quote :: (bytes.flatMap (quoteByte quote) ++ [quote]))

end Specializer.Text
