import Specializer.Yaml.Scalar.Basic

/-!
# Block scalars

Scalars written as an indented block of lines. A literal block keeps its line breaks; a folded one joins lines that do
not begin with a blank. The header says what happens to the line breaks at the end and may fix the indentation, which is
otherwise that of the first line with content.
-/

namespace Specializer.Yaml

/-- What happens to the line breaks at the end of a block. -/
inductive Chomping where
  /-- One is kept. -/
  | clip
  /-- None is kept. -/
  | strip
  /-- All are kept. -/
  | keep
  deriving DecidableEq, Repr

/-- The chomping a sign asks for. -/
def Chomping.ofChar? : Char → Option Chomping
  | '+' => some .keep
  | '-' => some .strip
  | _ => none

/-- The header of a block: chomping and indentation, each optional and in either order. -/
structure BlockHeader where
  chomping : Chomping := .clip
  /-- How much deeper than its surroundings the block is indented. -/
  increment : Option Nat := none

/-- An indentation from one to nine, if a digit stands here. -/
def increment? : List Char → Option (Option Nat × List Char)
  | c :: rest =>
    if c == '0' then none
    else if c.isDigit then some (some (c.toNat - 48), rest)
    else some (none, c :: rest)
  | [] => some (none, [])

/-- The chomping, if a sign stands here. -/
def chomping? : List Char → Option Chomping × List Char
  | c :: rest => match Chomping.ofChar? c with
    | some chomping => (some chomping, rest)
    | none => (none, c :: rest)
  | [] => (none, [])

/-- The header of a block and the line behind it. -/
def blockHeader? (s : List Char) : Option (BlockHeader × List Char) := do
  let (before, rest) := chomping? s
  let (increment, rest) ← increment? rest
  let (after, rest) := if before.isNone && increment.isSome then chomping? rest else (none, rest)
  let rest ← endOfLine? rest
  return ({ chomping := (before.or after).getD .clip, increment }, rest)

/-- The lines read of a block. -/
structure Block where
  /-- The text before the last line break, last character first. -/
  text : List Char := []
  /-- The line break behind the text. -/
  leading : List Char := []
  /-- The line breaks of the empty lines after it, last one first. -/
  trailing : List Char := []
  /-- Whether the last line with content began with a blank. -/
  indented : Bool := false
  /-- The column reached in the indentation of the line, `none` inside its content. -/
  column : Option Nat := some 0

/-- Begins a line with content. In a folded block the line break before it becomes a space, or vanishes before empty
lines, unless one of the lines begins with a blank. -/
def Block.beginLine (b : Block) (literal : Bool) (c : Char) : Block :=
  let folds := !literal && b.leading == ['\n'] && !b.indented && !isBlank c
  let joint := if folds then (if b.trailing.isEmpty then [' '] else []) else b.leading
  { text := c :: b.trailing ++ joint ++ b.text, indented := isBlank c, column := none }

/-- Reads the lines of a block of a given indentation, up to the first line that is indented less. -/
def blockFrom (literal : Bool) (indent : Nat) (b : Block) : List Char → Option (Block × List Char)
  | [] => some (b, [])
  | c :: rest =>
    match b.column with
    | none =>
      if isBreak c then blockFrom literal indent { b with leading := [c], trailing := [], column := some 0 } rest
      else blockFrom literal indent { b with text := c :: b.text } rest
    | some column =>
      if isBreak c then blockFrom literal indent { b with trailing := c :: b.trailing, column := some 0 } rest
      else if column < indent then
        if c == ' ' then blockFrom literal indent { b with column := some (column + 1) } rest
        else if c == '\t' then none
        else some (b, c :: rest)
      else blockFrom literal indent (b.beginLine literal c) rest

/-- Empty lines in front of a block whose indentation is not known: the line breaks, last one first, the column the
content begins at and the deepest column of all these lines. -/
def emptyLines (breaks : List Char) (column deepest : Nat) : List Char → Option (List Char × Nat × Nat × List Char)
  | [] => some (breaks, column, deepest, [])
  | c :: rest =>
    if c == ' ' then emptyLines breaks (column + 1) (max deepest (column + 1)) rest
    else if c == '\t' then none
    else if isBreak c then emptyLines (c :: breaks) 0 deepest rest
    else some (breaks, column, deepest, c :: rest)

/-- The text of a block with the line breaks at its end that are kept. -/
def Block.close (b : Block) (chomping : Chomping) : String :=
  let kept := match chomping with
    | .strip => []
    | .clip => b.leading
    | .keep => b.trailing ++ b.leading
  String.ofList (kept ++ b.text).reverse

/-- A block scalar, behind its indicator, and what follows it. The block around it, if any, begins at the column
`around`. -/
def block? (literal : Bool) (around : Option Nat) (s : List Char) : Option (String × List Char) := do
  let (header, rest) ← blockHeader? s
  let (b, rest) ← match header.increment with
    | some increment => blockFrom literal (around.getD 0 + increment) {} rest
    | none => do
      let (breaks, column, deepest, rest) ← emptyLines [] 0 0 rest
      let least := match around with
        | some column => column + 1
        | none => 1
      blockFrom literal (max deepest least) { trailing := breaks, column := some column } rest
  return (b.close header.chomping, rest)

end Specializer.Yaml
