import Specializer.Yaml.Scalar.Basic

/-!
# Plain scalars

A scalar without quotes. It goes on over the ends of lines as long as the next line is indented deeply enough, and ends
before a comment, before a colon that ends a key and, in flow style, before the marks of the collection around it.
-/

namespace Specializer.Yaml

/-- A plain scalar as read from the front of a text. -/
structure PlainScalar where
  text : String
  /-- Whether a line ended between the scalar and what follows. -/
  endedLine : Bool
  rest : List Char
  deriving Repr

/-- Whether a text starts a plain scalar: with no indicator, with a dash in front of a word or, in block style, with a
question mark or a colon in front of a word. -/
def startsPlain (inFlow : Bool) (c : Char) (rest : List Char) : Bool :=
  !(isBlank c || isFlowMark c || "-?:#&*!|>'\"%@\x60".toList.contains c)
    || (c == '-' && !atGap rest)
    || (!inFlow && (c == '?' || c == ':') && !atGap rest)

/-- The rest of a plain scalar whose lines reach at least to a column. What was read stands in `text`, last character
first, and in `gap` the blanks since then. A tab may not stand in the indentation of a line and, in flow style, a colon
not directly before a mark. -/
def plainFrom (inFlow : Bool) (indent : Nat) (text : List Char) (gap : Gap) : List Char → Option PlainScalar
  | [] => some ⟨String.ofList text.reverse, gap.breaksLine, []⟩
  | c :: rest =>
    if isBreak c then plainFrom inFlow indent text (c :: gap) rest
    else if isBlank c then
      if gap.breaksLine && gap.column < indent && c == '\t' then none
      else plainFrom inFlow indent text (c :: gap) rest
    else if (gap.breaksLine && !inFlow && gap.column < indent)
        || (gap.breaksLine && gap.column == 0 && isDocumentMark (c :: rest))
        || (!gap.isEmpty && c == '#') then
      some ⟨String.ofList text.reverse, gap.breaksLine, c :: rest⟩
    else if inFlow && c == ':' && rest.head?.any (fun d => isFlowMark d || d == '?') then none
    else if (c == ':' && atGap rest) || (inFlow && isFlowMark c) then
      some ⟨String.ofList text.reverse, gap.breaksLine, c :: rest⟩
    else plainFrom inFlow indent (c :: gap.fold ++ text) [] rest

/-- The plain scalar at the front of a text. -/
def plain? (inFlow : Bool) (indent : Nat) (s : List Char) : Option PlainScalar := plainFrom inFlow indent [] [] s

end Specializer.Yaml
