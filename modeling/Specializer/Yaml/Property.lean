import Specializer.Text.Utf8
import Specializer.Yaml.Token

/-!
# Anchors, tags and directives

The words that give a node a name or a type, and the lines in front of a document that give tag handles a meaning.
-/

namespace Specializer.Yaml

/-- The name of an anchor, behind its indicator, and what follows it. -/
def anchorName? (s : List Char) : Option (String × List Char) :=
  let name := s.takeWhile isNameChar
  let rest := s.dropWhile isNameChar
  if !name.isEmpty && (atGap rest || rest.head?.any ("?:,]\x7d%@\x60".toList.contains ·)) then
    some (String.ofList name, rest)
  else none

/-- Whether a character may stand in a tag. Commas and brackets may only where they cannot be marks of a collection. -/
def isTagChar (withMarks : Bool) (c : Char) : Bool :=
  isNameChar c || ";/?:@&=+$.%!~*'()".toList.contains c || (withMarks && (c == ',' || c == '[' || c == ']'))

/-- How many octets follow the first octet of a character. -/
def furtherOctets? (octet : Nat) : Option Nat :=
  if octet < 0x80 then some 0
  else if octet / 32 == 6 then some 1
  else if octet / 16 == 14 then some 2
  else if octet / 8 == 30 then some 3
  else none

/-- The octets of a tag up to the first zero, if there is one: that ends it. -/
def tagOctets (reversed : List UInt8) : List UInt8 := reversed.reverse.takeWhile (· != 0)

/-- The octets of a tag and what follows it. Octets are escaped with a percent sign; `pending` octets of an escaped
character are still to come. What was read stands in `read`, last octet first. -/
def tagTextFrom (withMarks : Bool) (read : List UInt8) (pending : Nat) : List Char → Option (List UInt8 × List Char)
  | [] => if pending = 0 then some (tagOctets read, []) else none
  | '%' :: a :: b :: rest =>
    match hexValue? a, hexValue? b with
    | some high, some low =>
      let octet := 16 * high + low
      let further? :=
        if pending = 0 then furtherOctets? octet
        else if octet / 64 == 2 then some (pending - 1)
        else none
      match further? with
      | none => none
      | some further => tagTextFrom withMarks (octet.toUInt8 :: read) further rest
    | _, _ => none
  | c :: rest =>
    if pending ≠ 0 then none
    else if !isTagChar withMarks c then some (tagOctets read, c :: rest)
    else if c == '%' then none
    else tagTextFrom withMarks (c.toUInt8 :: read) 0 rest

/-- The octets of a tag of at least one character. -/
def tagText? (withMarks : Bool) (s : List Char) : Option (List UInt8 × List Char) :=
  (tagTextFrom withMarks [] 0 s).filter fun (_, rest) => rest.length < s.length

/-- A tag behind its exclamation mark: in angle brackets, with a handle between exclamation marks, or plain. The mark
alone is a tag too. -/
def writtenTag? : List Char → Option (WrittenTag × List Char)
  | '<' :: rest =>
    match tagText? true rest with
    | some (text, '>' :: rest) => some (⟨"", text⟩, rest)
    | _ => none
  | s =>
    let name := s.takeWhile isNameChar
    match s.dropWhile isNameChar with
    | '!' :: rest =>
      (tagText? false rest).map fun (text, rest) => (⟨"!" ++ String.ofList name ++ "!", text⟩, rest)
    | _ =>
      (tagTextFrom false [] 0 s).map fun (text, rest) =>
        (if text.isEmpty then ⟨"", Text.Utf8.encode "!"⟩ else ⟨"!", text⟩, rest)

/-- A tag, behind its exclamation mark, that ends before a gap or, in flow style, before a comma. -/
def tag? (inFlow : Bool) (s : List Char) : Option (WrittenTag × List Char) :=
  (writtenTag? s).filter fun (_, rest) => atGap rest || (inFlow && rest.head? == some ',')

/-- A number of one to nine digits. -/
def versionNumber? (s : List Char) : Option (Nat × List Char) :=
  let digits := s.takeWhile Char.isDigit
  if digits.isEmpty || 9 < digits.length then none
  else some (digits.foldl (fun n c => 10 * n + (c.toNat - 48)) 0, s.dropWhile Char.isDigit)

/-- The version a directive asks for. -/
def versionDirective? (s : List Char) : Option (Token × List Char) := do
  let (major, rest) ← versionNumber? (s.dropWhile isBlank)
  match rest with
  | '.' :: rest =>
    let (minor, rest) ← versionNumber? rest
    return (.versionDirective major minor, rest)
  | _ => none

/-- The handle and the meaning a directive gives it. -/
def tagDirective? (s : List Char) : Option (Token × List Char) :=
  match s.dropWhile isBlank with
  | '!' :: rest => do
    let name := rest.takeWhile isNameChar
    let (handle, rest) ← match rest.dropWhile isNameChar with
      | '!' :: rest => some ("!" ++ String.ofList name ++ "!", rest)
      | rest => if name.isEmpty then some ("!", rest) else none
    if !rest.head?.any isBlank then none
    let (expansion, rest) ← tagText? true (rest.dropWhile isBlank)
    if !atGap rest then none
    return (.tagDirective handle expansion, rest)
  | _ => none

/-- A directive, behind its percent sign, and what follows its line. -/
def directive? (s : List Char) : Option (Token × List Char) := do
  let name := String.ofList (s.takeWhile isNameChar)
  let rest := s.dropWhile isNameChar
  if !atGap rest then none
  let (token, rest) ← match name with
    | "YAML" => versionDirective? rest
    | "TAG" => tagDirective? rest
    | _ => none
  return (token, ← endOfLine? rest)

end Specializer.Yaml
