import Specializer.Text.Blank
import Specializer.Tree.Error

/-!
# Diagnostics

The errors a compilation reports: faults of the source, shown with the line they were found on, and faults of the
compiler itself. Errors the compiled program will raise are no diagnostics; they become part of its tree.
-/

namespace Specializer

/-- A fault of the source, with as much of its place as is known. -/
structure SyntaxError where
  reason : String
  file : Option String := none
  line : Option UInt32 := none
  /-- Counted from one. -/
  column : Option UInt32 := none
  sourceLine : Option String := none
  deriving DecidableEq, Repr, Inhabited

namespace SyntaxError

/-- The line that names the place. -/
def renderPlace (e : SyntaxError) : String :=
  match e.file, e.line with
  | some file, some line => s!"  File \"{file}\", line {line.toNat}\n"
  | some file, none => s!"  File \"{file}\"\n"
  | none, _ => ""

/-- The source line without the blanks around it, and a caret under the column. The caret moves left by the bytes
that were dropped in front, but not beyond the start. -/
def renderSource (e : SyntaxError) : String :=
  match e.sourceLine with
  | none => ""
  | some sourceLine =>
    let stripped := Text.trimStart sourceLine.toList
    let dropped := sourceLine.utf8ByteSize - (String.ofList stripped).utf8ByteSize
    let caret := match e.column with
      | none => ""
      | some column => "    " ++ String.ofList (List.replicate (column.toNat - 1 - dropped) ' ') ++ "^\n"
    "    " ++ String.ofList (Text.trimEnd stripped) ++ "\n" ++ caret

/-- The report of a fault: its place, its line and its reason. -/
def render (e : SyntaxError) : String := e.renderPlace ++ e.renderSource ++ "SyntaxError: " ++ e.reason

end SyntaxError

/-- Why a compilation failed. -/
inductive CompileError where
  /-- The source is at fault. -/
  | malformed (error : SyntaxError)
  /-- The optimizer met a state it rules out. -/
  | internal (reason : String)
  /-- A rule of the tree was broken. -/
  | tree (error : TreeError)
  deriving DecidableEq, Repr, Inhabited

namespace CompileError

/-- The message of an error. -/
def message : CompileError → String
  | .malformed error => error.render
  | .internal reason => "Internal error: " ++ reason
  | .tree error => "Internal error: " ++ error.message

/-- Whether the compiler is at fault rather than its input. -/
def isInternal : CompileError → Bool
  | .malformed _ => false
  | .internal _ | .tree _ => true

/-- The text shown to the user. -/
def report (e : CompileError) : String :=
  if e.isInternal then
    "Pyrite: " ++ e.message ++ "\nThis is a bug in the compiler, not in your program.\n"
      ++ "Please report it together with the source that triggered it."
  else e.message

end CompileError

end Specializer
