import Specializer.BuiltinName
import Specializer.ChangeLog
import Specializer.Imports.Hard
import Specializer.Options.Basic
import Specializer.Trace

/-!
# The context of replacements

What a replacement sees and changes while a unit is walked: the tree, the trace of the unit and the change log; options
and locator are fixed. An error keeps what was done before it.
-/

namespace Specializer

/-- What a replacement may change. -/
structure Workspace where
  tree : Tree
  trace : Trace
  changes : ChangeLog := {}
  deriving Inhabited

/-- What a replacement only looks at. -/
structure Settings where
  options : Options
  locator : Locator

/-- Computations that replace nodes of a tree. -/
abbrev ReplaceM := ReaderT Settings (EStateM CompileError Workspace)

namespace ReplaceM

variable {α : Type}

/-- A compilation step on the tree. -/
def onCompile (action : CompileM α) : ReplaceM α := fun _ w =>
  match action w.tree with
  | .ok a tree => .ok a { w with tree }
  | .error e tree => .error e { w with tree }

/-- A tree operation. -/
def onTree (action : TreeM α) : ReplaceM α := onCompile (CompileM.onTree action)

/-- A question to the tree. -/
def ask (question : Tree → Except TreeError α) : ReplaceM α := onTree (TreeM.query question)

/-- The tree as it is. -/
def tree : ReplaceM Tree := return (← get).tree

/-- The language version. -/
def version : ReplaceM Version := return (← read).options.version

/-- Control may leave the unit here through an exception. -/
def recordExit (kind : ExceptionKind) (source : SourceRef) : ReplaceM Unit :=
  modify fun w => { w with trace := w.trace.recordExit kind source }

/-- Control ends here. -/
def abort : ReplaceM Unit := modify fun w => { w with trace := w.trace.abort }

/-- Says what a replacement did. -/
def signal (tags : ChangeTags) (source : SourceRef) (message : String) : ReplaceM Unit :=
  modify fun w => { w with changes := w.changes.add tags source message }

/-- Puts `new` in the place of `old` and tears `old` down. -/
def replaceNode (old new : NodeId) : ReplaceM Unit := do
  onTree (TreeM.replaceWith old new)
  onTree (TreeM.finalize old)

/-- Counts the references of a variable again after one was lost. For the variables of functions that is a change of
its own. -/
def reconsiderVariable (id : VariableId) (source : SourceRef) : ReplaceM Unit := do
  let _ ← onTree (TreeM.reconsiderVariable id)
  let v ← ask (·.variableAt id)
  if (← ask (·.kind v.owner)) = .functionBody then
    signal { variableUsage := true } source s!"Reduced scope of variable '{v.name}'."

end ReplaceM

/-- Whether a variable is a global, or may stand for one. -/
def VariableKind.mayBeGlobal : VariableKind → Bool
  | .module | .maybeLocal => true
  | .localScope | .temp => false

namespace Tree

/-- The variable a node reads, if it is global, or may stand for a global, and is known never to be rebound. -/
def readOnlyVariable? (t : Tree) (id : NodeId) : Option (VariableId × Variable) := do
  let n ← t.get? id
  guard (n.kind = .variableRef)
  let variableId ← n.referent?
  let v ← t.bindings[variableId.index]?
  guard (v.kind.mayBeGlobal && v.readOnly)
  return (variableId, v)

/-- The builtin a call names, with the variable it is called through. -/
def calledBuiltin? (t : Tree) (version : Version) (id : NodeId) : Option (VariableId × String) := do
  let n ← t.get? id
  guard (n.kind = .functionCall)
  let called ← (t.child id "called").toOption.join
  let (variableId, v) ← t.readOnlyVariable? called
  guard (BuiltinName.isBuiltin version v.name)
  return (variableId, v.name)

end Tree

end Specializer
