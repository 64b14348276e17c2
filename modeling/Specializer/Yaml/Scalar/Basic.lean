import Specializer.Yaml.Character

/-!
# Scalars

How a scalar can be written, and the folding of line breaks that plain and quoted scalars share: a single line break
between two words is a space, and of several the first is dropped.
-/

namespace Specializer.Yaml

/-- How a scalar is written. -/
inductive ScalarStyle where
  | plain
  | singleQuoted
  | doubleQuoted
  | literal
  | folded
  deriving DecidableEq, Repr, Inhabited

/-- A gap between two words, a run of blanks and line breaks, last character first. -/
abbrev Gap := List Char

namespace Gap

/-- Whether a gap reaches over the end of a line. -/
def breaksLine (gap : Gap) : Bool := gap.any isBreak

/-- The column a gap with a line break ends at. -/
def column (gap : Gap) : Nat := (gap.takeWhile (!isBreak ·)).length

/-- What a gap stands for between two words, last character first. Without a line break it stands for itself; a newline
alone is a space, and a newline before other breaks is dropped. -/
def fold (gap : Gap) : List Char :=
  let breaks := gap.filter isBreak
  if breaks.isEmpty then gap
  else if breaks.getLast? == some '\n' then (if breaks.length == 1 then [' '] else breaks.dropLast)
  else breaks

/-- A gap on one line stands for itself. -/
theorem fold_of_not_breaksLine {gap : Gap} (h : gap.breaksLine = false) : gap.fold = gap := by
  have : gap.filter isBreak = [] := by
    rw [List.filter_eq_nil_iff]
    simpa [breaksLine] using h
  simp [fold, this]

/-- A newline alone is a space. -/
example : fold ['\n', ' '] = [' '] := by decide

/-- Of two newlines the first is dropped. -/
example : fold [' ', '\n', '\n'] = ['\n'] := by decide

end Gap

end Specializer.Yaml
