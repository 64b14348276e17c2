import Specializer.Tree.Update

/-!
# Variables that are never rebound

A global is read-only when nothing reachable assigns or releases it and the module has no star import of its own. A
name of a class body that may be local is read-only when its scope never binds the name and the global of the same
name is read-only.
-/

namespace Specializer

/-- What the reachable nodes do to variables. -/
structure Rebindings where
  /-- The variables that are assigned or released. -/
  written : List VariableId := []
  /-- The module itself has a star import, which may bind any name. -/
  moduleStar : Bool := false

namespace Tree

/-- Adds what a node does to variables. -/
def noteRebinding (t : Tree) (root : NodeId) (r : Rebindings) (id : NodeId) : Except TreeError Rebindings := do
  let n ← t.node id
  match n.kind with
  | .statementAssignmentVariable | .statementReleaseVariable =>
    match n.referent? with
    | some variableId => return { r with written := variableId :: r.written }
    | none => return r
  | .statementImportStar =>
    if (← t.providerOf id) = some root then return { r with moduleStar := true } else return r
  | _ => return r

/-- What the nodes below the root do to variables. -/
def rebindings (t : Tree) (root : NodeId) : Except TreeError Rebindings := do
  (← t.walk root).foldlM (t.noteRebinding root) {}

/-- Whether a scope binds a name through some written variable. -/
def bindsName (t : Tree) (r : Rebindings) (owner : NodeId) (name : String) : Bool :=
  r.written.any fun id => match t.bindings[id.index]? with
    | some v => v.owner == owner && v.name == name
    | none => false

/-- Whether the global with a name is never rebound. -/
def globalIsReadOnly (t : Tree) (root : NodeId) (r : Rebindings) (name : String) : Bool :=
  !r.moduleStar && match t.findVariable? root name with
    | some id => !r.written.contains id
    | none => true

/-- Whether a variable is never rebound. -/
def isReadOnly (t : Tree) (root : NodeId) (r : Rebindings) (id : VariableId) (v : Variable) : Bool :=
  match v.kind with
  | .module => !r.written.contains id && !r.moduleStar
  | .maybeLocal => !t.bindsName r v.owner v.name && t.globalIsReadOnly root r v.name
  | .localScope | .temp => false

end Tree

namespace TreeM

/-- Decides anew for every variable whether it is read-only, and returns how many are. Without a root nothing is
known and nothing changes. -/
def annotateReadOnly : TreeM Nat := do
  let t ← get
  match t.root with
  | none => return 0
  | some root =>
    let r ← ofExcept (t.rebindings root)
    let decided := t.variableList.map fun (id, v) => { v with readOnly := t.isReadOnly root r id v }
    set { t with bindings := decided.toArray }
    return decided.countP (·.readOnly)

end TreeM

end Specializer
