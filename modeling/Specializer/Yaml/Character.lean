/-!
# Characters of a document

The characters a YAML document may hold, the classes that divide it into words and lines, and one spelling for the line
breaks that only end a line.
-/

namespace Specializer.Yaml

/-- Whether a character may stand in a document: tabs, line breaks and everything printable, but no control character
and none of the code points that are not for interchange. -/
def isAllowed (c : Char) : Bool :=
  let n := c.toNat
  n == 0x09 || n == 0x0a || n == 0x0d || (0x20 ≤ n && n ≤ 0x7e) || n == 0x85 || (0xa0 ≤ n && n ≤ 0xfffd)
    || 0x10000 ≤ n

/-- Writes each line break as a newline, apart from the line and paragraph separators, which stay themselves. -/
def normalizeBreaks : List Char → List Char
  | '\r' :: '\n' :: rest => '\n' :: normalizeBreaks rest
  | c :: rest => (if c == '\r' || c == '\u0085' then '\n' else c) :: normalizeBreaks rest
  | [] => []

/-- Whether a character ends a line, once line breaks are normalized. -/
def isBreak (c : Char) : Bool := c == '\n' || c == '\u2028' || c == '\u2029'

/-- Whether a character separates words on a line. -/
def isBlank (c : Char) : Bool := c == ' ' || c == '\t'

/-- Whether a word ends here: before a blank, before a line break or at the end. -/
def atGap : List Char → Bool
  | [] => true
  | c :: _ => isBlank c || isBreak c

/-- Whether a character divides or closes values in flow style. -/
def isFlowMark (c : Char) : Bool := c == ',' || c == '[' || c == ']' || c == '\x7b' || c == '\x7d'

/-- Whether a character may stand in the name of an anchor, of a tag handle or of a directive. -/
def isNameChar (c : Char) : Bool := c.isAlphanum || c == '_' || c == '-'

/-- The value of a hexadecimal digit. -/
def hexValue? (c : Char) : Option Nat :=
  if c.isDigit then some (c.toNat - 48)
  else if 'a' ≤ c ∧ c ≤ 'f' then some (c.toNat - 87)
  else if 'A' ≤ c ∧ c ≤ 'F' then some (c.toNat - 55)
  else none

/-- Whether a word of three equal marks stands here. -/
def isTriple (mark : Char) : List Char → Bool
  | a :: b :: c :: rest => a == mark && b == mark && c == mark && atGap rest
  | _ => false

/-- Whether a line that begins like this starts or ends a document. -/
def isDocumentMark (line : List Char) : Bool := isTriple '-' line || isTriple '.' line

/-- What follows blanks and a comment on the same line, if the line ends there. -/
def endOfLine? (rest : List Char) : Option (List Char) :=
  let rest := match rest.dropWhile isBlank with
    | '#' :: comment => comment.dropWhile (!isBreak ·)
    | rest => rest
  match rest with
  | [] => some []
  | c :: rest => if isBreak c then some rest else none

/-- Normalized text has no carriage return. -/
theorem normalizeBreaks_carriageReturn (s : List Char) : '\r' ∉ normalizeBreaks s := by
  fun_induction normalizeBreaks s with
  | case1 rest ih => simp [ih]
  | case2 c rest h ih =>
    simp only [List.mem_cons, not_or]
    refine ⟨?_, ih⟩
    split
    · decide
    · rename_i hc
      intro h'
      simp [← h'] at hc
  | case3 => simp

end Specializer.Yaml
