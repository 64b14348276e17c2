import Specializer.Yaml.Scalar.Basic

/-!
# Quoted scalars

Scalars between single quotes, where a quote is written twice and nothing else is special, and between double quotes,
with escapes. Line breaks fold in both; an escaped line break between double quotes is left out, with the blanks around
it on the next line.
-/

namespace Specializer.Yaml

/-- The rest of a single-quoted scalar and what follows it. What was read stands in `text`, last character first, and in
`gap` the blanks since then. -/
def singleQuotedFrom (text : List Char) (gap : Gap) : List Char → Option (String × List Char)
  | [] => none
  | '\'' :: '\'' :: rest => singleQuotedFrom ('\'' :: gap.fold ++ text) [] rest
  | c :: rest =>
    if c == '\'' then some (String.ofList (gap.fold ++ text).reverse, rest)
    else if isBlank c || isBreak c then singleQuotedFrom text (c :: gap) rest
    else if gap.head?.any isBreak && isDocumentMark (c :: rest) then none
    else singleQuotedFrom (c :: gap.fold ++ text) [] rest

/-- What the character after a backslash asks for. -/
inductive Escape where
  /-- A character. -/
  | char (c : Char)
  /-- The character with a code of so many hexadecimal digits. -/
  | code (digits : Nat)
  deriving DecidableEq, Repr

/-- The escapes of double-quoted scalars. -/
def Escape.ofChar? : Char → Option Escape
  | '0' => some (.char (Char.ofNat 0x00))
  | 'a' => some (.char (Char.ofNat 0x07))
  | 'b' => some (.char (Char.ofNat 0x08))
  | 't' | '\t' => some (.char '\t')
  | 'n' => some (.char '\n')
  | 'v' => some (.char (Char.ofNat 0x0b))
  | 'f' => some (.char (Char.ofNat 0x0c))
  | 'r' => some (.char '\r')
  | 'e' => some (.char (Char.ofNat 0x1b))
  | ' ' => some (.char ' ')
  | '"' => some (.char '"')
  | '/' => some (.char '/')
  | '\\' => some (.char '\\')
  | 'N' => some (.char '\u0085')
  | '_' => some (.char '\u00a0')
  | 'L' => some (.char '\u2028')
  | 'P' => some (.char '\u2029')
  | 'x' => some (.code 2)
  | 'u' => some (.code 4)
  | 'U' => some (.code 8)
  | _ => none

/-- Where a double-quoted scalar is being read. -/
inductive DoubleQuoted where
  /-- Between escapes, behind a gap; an escaped line break before the gap joins the lines. -/
  | between (gap : Gap) (joins : Bool)
  /-- Behind a backslash. -/
  | escape
  /-- Inside a code, with some digits to come after the next. -/
  | code (further value : Nat)

/-- What a gap of a double-quoted scalar stands for: behind an escaped line break only the further breaks count. -/
def Gap.foldJoined (gap : Gap) (joins : Bool) : List Char := if joins then gap.filter isBreak else gap.fold

/-- The rest of a double-quoted scalar and what follows it. What was read stands in `text`, last character first. -/
def doubleQuotedFrom (text : List Char) : DoubleQuoted → List Char → Option (String × List Char)
  | _, [] => none
  | .between gap joins, c :: rest =>
    if c == '"' then some (String.ofList (gap.foldJoined joins ++ text).reverse, rest)
    else if isBlank c || isBreak c then doubleQuotedFrom text (.between (c :: gap) joins) rest
    else if (gap.head?.map isBreak).getD joins && isDocumentMark (c :: rest) then none
    else if c == '\\' then doubleQuotedFrom (gap.foldJoined joins ++ text) .escape rest
    else doubleQuotedFrom (c :: gap.foldJoined joins ++ text) (.between [] false) rest
  | .escape, c :: rest =>
    if isBreak c then doubleQuotedFrom text (.between [] true) rest
    else match Escape.ofChar? c with
      | none => none
      | some (.char d) => doubleQuotedFrom (d :: text) (.between [] false) rest
      | some (.code digits) => doubleQuotedFrom text (.code (digits - 1) 0) rest
  | .code further value, c :: rest =>
    match hexValue? c with
    | none => none
    | some digit =>
      let value := 16 * value + digit
      match further with
      | further + 1 => doubleQuotedFrom text (.code further value) rest
      | 0 =>
        if value.isValidChar then doubleQuotedFrom (Char.ofNat value :: text) (.between [] false) rest
        else none

/-- A quoted scalar, behind its opening quote, and what follows it. -/
def quoted? (style : ScalarStyle) (s : List Char) : Option (String × List Char) :=
  if style = .singleQuoted then singleQuotedFrom [] [] s else doubleQuotedFrom [] (.between [] false) s

end Specializer.Yaml
