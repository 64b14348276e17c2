import Specializer.DispatchTable
import Specializer.Replacement.Context

/-!
# Names of exceptions and quick constants

A reference to the name of a builtin exception that is never rebound is the exception type itself. `None`, `True` and
`False` are names in the older version; references to them become constants.
-/

namespace Specializer

/-- The names that stand for constants. -/
def quickNames : DispatchTable String Constant :=
  .ofList [("None", .none), ("True", .bool true), ("False", .bool false)]

namespace ReplaceM

/-- Makes what a name stands for, `none` for names that stand for nothing known. -/
def makeNamed (name : String) (source : SourceRef) : ReplaceM (Option (NodeId × ChangeTags × String)) := do
  match quickNames.lookup? name with
  | some value =>
    let constant ← onTree (TreeM.makeConstant value source)
    return some (constant, { newConstant := true },
      s!"Replaced read-only module variable '{name}' with constant value.")
  | none =>
    match ExceptionKind.ofName? (← version) name with
    | some kind =>
      let reference ← onTree (TreeM.makeExceptionRef kind source)
      return some (reference, .raising,
        s!"Replaced access to read only module variable with exception '{name}'.")
    | none => return none

/-- Replaces a reference to a known name. Returns the node now in its place. -/
def replaceName (id : NodeId) : ReplaceM NodeId := do
  let some (variableId, v) := (← tree).readOnlyVariable? id | return id
  let source ← ask (·.source id)
  let some (replacement, tags, message) ← makeNamed v.name source | return id
  replaceNode id replacement
  signal tags source message
  reconsiderVariable variableId source
  return replacement

end ReplaceM

end Specializer
