import Specializer.ReadOnly
import Specializer.Replacement.Builtins
import Specializer.Replacement.Folding
import Specializer.Replacement.Names
import Specializer.Tree.Validate

/-!
# Optimizing to a fixed point

A pass decides which variables are read-only and walks every unit, the module body and each function body, with a
trace of its own: visitors on the way down, computations on the way up. Passes repeat until one changes nothing; a
tree that still changes after the allowed number of passes is an error.
-/

namespace Specializer

/-- What looks at every node on the way down. -/
inductive Visitor where
  | criticalBuiltins
  | optionalBuiltins
  | exceptionNames
  | constantFolding
  deriving DecidableEq, Repr

namespace Visitor

/-- The name of a visitor. -/
def name : Visitor → String
  | .criticalBuiltins => "critical builtin replacement"
  | .optionalBuiltins => "builtin replacement"
  | .exceptionNames => "exception name replacement"
  | .constantFolding => "constant folding"

/-- Looks at a node and may replace it. Returns the node now in its place. -/
def enter : Visitor → NodeId → ReplaceM NodeId
  | .criticalBuiltins => ReplaceM.replaceCriticalBuiltin
  | .optionalBuiltins => ReplaceM.replaceOptionalBuiltin
  | .exceptionNames => ReplaceM.replaceName
  | .constantFolding => ReplaceM.foldOperation

end Visitor

/-- The visitors the options ask for, in the order they run. The critical one always runs. -/
def Options.visitors (o : Options) : List Visitor :=
  .criticalBuiltins :: ((if o.builtinReplacement then [.optionalBuiltins] else [])
    ++ (if o.exceptionNameReplacement then [.exceptionNames] else [])
    ++ (if o.constantFolding then [.constantFolding] else []))

namespace ReplaceM

/-- Lets the visitors look at a node one after the other. Returns the node now in its place. -/
def enterNode (id : NodeId) : ReplaceM NodeId := do
  (← read).options.visitors.foldlM (fun current visitor => visitor.enter current) id

/-- Visits children with `visit`. A child that was moved meanwhile is left out; in a sequence of statements, nothing
after an abortive statement is visited. -/
def visitChildren (visit : NodeId → ReplaceM Unit) (parent : NodeId) (inSequence : Bool) :
    List NodeId → ReplaceM Unit
  | [] => return ()
  | child :: rest => do
    if inSequence && (← get).trace.abortive then return ()
    if (← tree).parent? child = some parent then visit child
    visitChildren visit parent inSequence rest

/-- Visits a node of a unit and everything below it, at most `fuel` levels deep: visitors on the way down,
computations on the way up. The unit itself is not replaced, and functions inside it are units of their own. -/
def visit (unit : NodeId) : Nat → NodeId → ReplaceM NodeId
  | 0, _ => throw (.internal "the tree is nested too deeply")
  | fuel + 1, id => do
    let current ← if id = unit then pure id else enterNode id
    let n ← ask (·.node current)
    if n.kind = .functionBody ∧ current ≠ unit then return current
    visitChildren (fun child => discard (visit unit fuel child)) current (n.kind = .statementsSequence) n.children
    if current = unit then return current
    applyComputed current (← computeNode current)

/-- The levels a walk may descend. A replacement adds at most four levels below the place of the node it replaces. -/
def depthBound (t : Tree) : Nat := 8 * t.nodes.size + 64

/-- Visits a unit. -/
def visitUnit (unit : NodeId) : ReplaceM Unit := do
  let _ ← visit unit (depthBound (← tree)) unit

end ReplaceM

/-- Whether passes are still needed. -/
inductive DriverState where
  | active
  | stable
  deriving DecidableEq, Repr, Inhabited

/-- The name of a state. -/
def DriverState.name : DriverState → String
  | .active => "Active"
  | .stable => "Stable"

/-- A run of passes over a tree. -/
structure Run where
  tree : Tree
  report : OptimizationReport := {}
  state : DriverState := .active
  deriving Inhabited

/-- Computations that run passes. -/
abbrev RunM := ReaderT Settings (EStateM CompileError Run)

/-- The module body and every function body, in tree order. -/
def Tree.units (t : Tree) : Except TreeError (List NodeId) := do
  match t.root with
  | none => throw .missingRoot
  | some root =>
    let below ← (← t.walk root).filterM fun id => return id ≠ root && (← t.kind id) = .functionBody
    return root :: below

namespace RunM

/-- A tree operation. -/
def onTree {α : Type} (action : TreeM α) : RunM α := fun _ s =>
  match action s.tree with
  | .ok a tree => .ok a { s with tree }
  | .error e tree => .error (.tree e) { s with tree }

/-- Runs replacements with a fresh trace for a unit. -/
def withTrace {α : Type} (unit : NodeId) (name : String) (action : ReplaceM α) : RunM α := fun settings s =>
  let trace : Trace := { unit, name, version := settings.options.version }
  let keep (w : Workspace) : Run := { s with tree := w.tree, report := { s.report with changes := w.changes } }
  match action settings { tree := s.tree, trace, changes := s.report.changes } with
  | .ok a w => .ok a (keep w)
  | .error e w => .error e (keep w)

/-- Optimizes a unit, unless an earlier one took it out of the tree. -/
def runUnit (unit : NodeId) : RunM Unit := do
  if (← get).tree.isReachable unit then
    let name := match ← onTree (TreeM.query (·.payload unit)) with
      | .scope name => name
      | _ => ""
    withTrace unit name (ReplaceM.visitUnit unit)

/-- Runs the units one after the other. -/
def runUnits : List NodeId → RunM Unit
  | [] => return ()
  | unit :: rest => do
    runUnit unit
    runUnits rest

/-- One pass over every unit. -/
def runPass : RunM Unit := do
  let _ ← onTree TreeM.annotateReadOnly
  runUnits (← onTree (TreeM.query (·.units)))

/-- Runs passes until one changes nothing, at most as many as are left. -/
def runPasses : Nat → RunM Unit
  | 0 => do
    let limit := (← read).options.maxPasses
    throw (.internal s!"optimization did not reach a fixed point after {limit} passes")
  | left + 1 => do
    let before := (← get).report.changes.size
    runPass
    modify fun s => { s with report := { s.report with passes := s.report.passes + 1 } }
    if (← get).report.changes.size = before then modify fun s => { s with state := .stable }
    else runPasses left

/-- Optimizes the tree until it is stable, and validates it. -/
def optimize : RunM OptimizationReport := do
  runPasses (← read).options.maxPasses
  onTree (TreeM.query (·.validate))
  return (← get).report

end RunM

/-- The outcome of optimizing a module: the report or an error, and the tree as it was left. -/
def optimizeModule (settings : Settings) (tree : Tree) : EStateM.Result CompileError Run OptimizationReport :=
  RunM.optimize settings { tree }

end Specializer
