import Specializer.SourceRef
import Specializer.Text.JsonDocument

/-!
# Change logs

Every replacement says what it did and where. The number of entries decides whether another pass is needed, and the list
tells a user why code changed.
-/

namespace Specializer

/-- What sort of change was made. -/
structure ChangeTags where
  newBuiltin : Bool := false
  newImport : Bool := false
  newRaise : Bool := false
  newVariable : Bool := false
  newExpression : Bool := false
  newConstant : Bool := false
  variableUsage : Bool := false
  newStatements : Bool := false
  deriving DecidableEq, Repr, Inhabited

namespace ChangeTags

/-- The tags in order, each with its name. -/
def flags (t : ChangeTags) : List (String × Bool) :=
  [("new_builtin", t.newBuiltin), ("new_import", t.newImport), ("new_raise", t.newRaise),
    ("new_variable", t.newVariable), ("new_expression", t.newExpression), ("new_constant", t.newConstant),
    ("var_usage", t.variableUsage), ("new_statements", t.newStatements)]

/-- The names of the tags that are set. -/
def names (t : ChangeTags) : List String := (t.flags.filter (·.2)).map (·.1)

/-- The tags with the given names. -/
def ofNames (names : List String) : ChangeTags :=
  { newBuiltin := names.contains "new_builtin"
    newImport := names.contains "new_import"
    newRaise := names.contains "new_raise"
    newVariable := names.contains "new_variable"
    newExpression := names.contains "new_expression"
    newConstant := names.contains "new_constant"
    variableUsage := names.contains "var_usage"
    newStatements := names.contains "new_statements" }

/-- The tags set in either. -/
def union (a b : ChangeTags) : ChangeTags :=
  { newBuiltin := a.newBuiltin || b.newBuiltin
    newImport := a.newImport || b.newImport
    newRaise := a.newRaise || b.newRaise
    newVariable := a.newVariable || b.newVariable
    newExpression := a.newExpression || b.newExpression
    newConstant := a.newConstant || b.newConstant
    variableUsage := a.variableUsage || b.variableUsage
    newStatements := a.newStatements || b.newStatements }

/-- A call or name that became a raise. -/
def raising : ChangeTags := { newRaise := true, newVariable := true }

end ChangeTags

/-- One change: its sort, its place and what was done. -/
structure Change where
  tags : ChangeTags
  source : SourceRef
  message : String
  deriving DecidableEq, Repr, Inhabited

namespace Change

/-- The line `file:line: [tags] message`. -/
def render (c : Change) : String :=
  c.source.file ++ ":" ++ toString c.source.line.toNat ++ ": [" ++ String.intercalate " " c.tags.names ++ "] "
    ++ c.message

/-- The change as a JSON object. -/
def toJson (c : Change) : Text.JsonDocument :=
  .object [
    ("tags", .list (c.tags.names.map .text)),
    ("source_ref", .object [
      ("file", .text c.source.file),
      ("line", .number c.source.line.toNat),
      ("column", .number c.source.column.toNat)]),
    ("message", .text c.message)]

end Change

/-- The changes of some passes, in the order they happened. -/
structure ChangeLog where
  changes : List Change := []
  deriving DecidableEq, Repr, Inhabited

namespace ChangeLog

/-- Adds a change. -/
def add (log : ChangeLog) (tags : ChangeTags) (source : SourceRef) (message : String) : ChangeLog :=
  ⟨log.changes ++ [⟨tags, source, message⟩]⟩

/-- How many changes there are. -/
def size (log : ChangeLog) : Nat := log.changes.length

/-- Whether there are none. -/
def isEmpty (log : ChangeLog) : Bool := log.changes.isEmpty

/-- All tags that occur. -/
def tags (log : ChangeLog) : ChangeTags := log.changes.foldl (fun tags c => tags.union c.tags) {}

/-- The changes by place; those at one place keep their order. -/
def byLocation (log : ChangeLog) : List Change := log.changes.mergeSort fun a b => a.source.le b.source

/-- One line for each change, by place. -/
def renderByLocation (log : ChangeLog) : String := String.intercalate "\n" (log.byLocation.map Change.render)

end ChangeLog

/-- What an optimization did. -/
structure OptimizationReport where
  /-- The passes that were run, the last one without changes included. -/
  passes : Nat := 0
  changes : ChangeLog := {}
  deriving DecidableEq, Repr, Inhabited

namespace OptimizationReport

/-- All changes by place, one a line. -/
def whyOptimized (r : OptimizationReport) : String := r.changes.renderByLocation

/-- The report as indented JSON. -/
def toJson (r : OptimizationReport) : String :=
  (Text.JsonDocument.object [
    ("passes", .number r.passes),
    ("changes", .list (r.changes.changes.map Change.toJson))]).render

end OptimizationReport

end Specializer
