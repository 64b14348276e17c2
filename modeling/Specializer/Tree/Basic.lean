import Specializer.Tree.Error

/-!
# Trees

All nodes and variables of a compiled module. A handle is a position in the arena: it is never given out twice, and it
becomes stale once its node is torn down. This module holds the lookups; every other module about trees goes through
them.

Operations that change a tree run in `TreeM`, whose errors leave a state behind. Each of them checks everything it
needs before it writes.
-/

namespace Specializer

/-- The nodes and variables of one module. -/
structure Tree where
  /-- The nodes by handle, `none` once torn down. -/
  nodes : Array (Option Node) := #[]
  /-- The variables by handle. -/
  bindings : Array Variable := #[]
  root : Option NodeId := none
  deriving Inhabited

/-- Computations that change a tree and may be refused. -/
abbrev TreeM := EStateM TreeError Tree

namespace TreeM

/-- The outcome of a check. -/
def ofExcept {α : Type} : Except TreeError α → TreeM α
  | .ok a => pure a
  | .error e => throw e

/-- A question to the tree. -/
def query {α : Type} (question : Tree → Except TreeError α) : TreeM α := do
  ofExcept (question (← get))

end TreeM

namespace Tree

/-- The node of a live handle. -/
def get? (t : Tree) (id : NodeId) : Option Node := t.nodes[id.index]?.join

/-- The node of a handle, which has to be live. -/
def node (t : Tree) (id : NodeId) : Except TreeError Node :=
  match t.get? id with
  | some n => .ok n
  | none => .error (.staleNode id)

/-- Whether a handle is live. -/
def isLive (t : Tree) (id : NodeId) : Bool := (t.get? id).isSome

/-- A lookup succeeds exactly on live handles, and gives their node. -/
theorem node_eq_ok_iff {t : Tree} {id : NodeId} {n : Node} : t.node id = .ok n ↔ t.get? id = some n := by
  unfold node
  split <;> simp_all

/-- A lookup fails exactly on stale handles, and names them. -/
theorem node_eq_error_iff {t : Tree} {id : NodeId} {e : TreeError} :
    t.node id = .error e ↔ t.get? id = none ∧ e = .staleNode id := by
  unfold node
  split
  · simp_all
  · simp_all only [Except.error.injEq, true_and]
    exact eq_comm

/-- The parent of a node, `none` for a stale handle too. -/
def parent? (t : Tree) (id : NodeId) : Option NodeId := (t.get? id).bind (·.parent)

/-- Whether a node has a parent or is the root. -/
def isAttached (t : Tree) (id : NodeId) : Bool := t.root == some id || (t.parent? id).isSome

/-- The kind of a live node. -/
def kind (t : Tree) (id : NodeId) : Except TreeError NodeKind := return (← t.node id).kind

/-- The source reference of a live node. -/
def source (t : Tree) (id : NodeId) : Except TreeError SourceRef := return (← t.node id).source

/-- The payload of a live node. -/
def payload (t : Tree) (id : NodeId) : Except TreeError Payload := return (← t.node id).payload

/-- The children of a live node in slot order. -/
def children (t : Tree) (id : NodeId) : Except TreeError (List NodeId) := return (← t.node id).children

/-- The capabilities of a live node. -/
def capabilities (t : Tree) (id : NodeId) : Except TreeError Capabilities := return (← t.node id).capabilities

/-- The content of a named slot of a live node. -/
def slot (t : Tree) (id : NodeId) (name : String) : Except TreeError Slot := do
  let n ← t.node id
  match (n.kind.slotIndex? name).bind fun index => n.slots[index]? with
  | some content => return content
  | none => throw (.unknownSlot n.kind name)

/-- The child in a slot for a single node. -/
def child (t : Tree) (id : NodeId) (name : String) : Except TreeError (Option NodeId) := do
  match ← t.slot id name with
  | .one child => return child
  | .many _ => throw (.schemaMismatch (← t.kind id) name Arity.optional.describe Arity.sequence.describe)

/-- The children in any slot. -/
def childrenIn (t : Tree) (id : NodeId) (name : String) : Except TreeError (List NodeId) :=
  return (← t.slot id name).ids

/-- The value of a constant node. -/
def constant? (t : Tree) (id : NodeId) : Option Constant := (t.get? id).bind Node.constant?

/-- The variable a node reads, writes or releases. -/
def variableOf? (t : Tree) (id : NodeId) : Option VariableId := (t.get? id).bind Node.referent?

/-- The variable of a handle. -/
def variableAt (t : Tree) (id : VariableId) : Except TreeError Variable :=
  match t.bindings[id.index]? with
  | some v => .ok v
  | none => .error (.unknownVariable id)

/-- The variables with their handles, in the order of their declaration. -/
def variableList (t : Tree) : List (VariableId × Variable) :=
  t.bindings.toList.zipIdx.map fun (v, index) => (⟨index⟩, v)

/-- The first variable of a scope with a given name. -/
def findVariable? (t : Tree) (owner : NodeId) (name : String) : Option VariableId :=
  (t.variableList.find? fun (_, v) => v.owner == owner && v.name == name).map (·.1)

/-- How many nodes are live, attached or not. -/
def liveCount (t : Tree) : Nat := t.nodes.toList.countP Option.isSome

/-- The live nodes with their handles, by handle. -/
def liveNodes (t : Tree) : List (NodeId × Node) :=
  t.nodes.toList.zipIdx.filterMap fun (n?, index) => n?.map fun n => (⟨index⟩, n)

/-- Changes a live node. -/
def modifyNode (t : Tree) (id : NodeId) (f : Node → Node) : Tree :=
  { t with nodes := t.nodes.modify id.index (Option.map f) }

/-- A changed node shows the change. -/
theorem get?_modifyNode_self (t : Tree) (id : NodeId) (f : Node → Node) :
    (t.modifyNode id f).get? id = (t.get? id).map f := by
  simp only [get?, modifyNode, Array.getElem?_modify]
  cases t.nodes[id.index]? with
  | none => rfl
  | some n? => cases n? <;> rfl

/-- A change to one node is not seen at any other. -/
theorem get?_modifyNode_of_ne (t : Tree) {id other : NodeId} (f : Node → Node) (h : other ≠ id) :
    (t.modifyNode id f).get? other = t.get? other := by
  have hne : id.index ≠ other.index := fun e => h (by cases id; cases other; simp_all)
  simp [get?, modifyNode, Array.getElem?_modify, hne]

/-- Changes add no handles. -/
theorem size_modifyNode (t : Tree) (id : NodeId) (f : Node → Node) :
    (t.modifyNode id f).nodes.size = t.nodes.size := by
  simp [modifyNode]

/-- Changing a node keeps all handles alive. -/
theorem isLive_modifyNode (t : Tree) (id other : NodeId) (f : Node → Node) :
    (t.modifyNode id f).isLive other = t.isLive other := by
  by_cases h : other = id
  · subst h
    simp [isLive, get?_modifyNode_self]
  · simp [isLive, get?_modifyNode_of_ne t f h]

/-- Sets the parent link of a node. -/
def setParent (t : Tree) (id : NodeId) (parent : Option NodeId) : Tree :=
  t.modifyNode id fun n => { n with parent }

end Tree

end Specializer
