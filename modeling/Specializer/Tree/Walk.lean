import Specializer.Tree.Basic

/-!
# Walks through a tree

Upwards along parent links, and downwards through the slots. A path in a tree meets every node at most once, so the
size of the arena bounds every walk.
-/

namespace Specializer.Tree

/-- The ancestors of a node, nearest first, at most `fuel` of them. -/
def ancestorsUpTo (t : Tree) : Nat → NodeId → List NodeId
  | 0, _ => []
  | fuel + 1, id =>
    match t.parent? id with
    | none => []
    | some parent => parent :: ancestorsUpTo t fuel parent

/-- The ancestors of a node, nearest first. -/
def ancestors (t : Tree) (id : NodeId) : List NodeId := t.ancestorsUpTo t.nodes.size id

/-- Whether `candidate` stands above a node. -/
def isAncestor (t : Tree) (candidate id : NodeId) : Bool := (t.ancestors id).contains candidate

/-- Whether the parent links lead from a node to the root. -/
def isReachable (t : Tree) (id : NodeId) : Bool :=
  let top := (t.ancestors id).getLastD id
  t.isLive top && t.root == some top

/-- The first scope among some nodes. -/
def firstScope (t : Tree) : List NodeId → Except TreeError (Option NodeId)
  | [] => return none
  | id :: rest => do
    if (← t.kind id).isScope then return some id else firstScope t rest

/-- The closest scope around a node, the node itself not counted. -/
def providerOf (t : Tree) (id : NodeId) : Except TreeError (Option NodeId) := do
  let _ ← t.node id
  t.firstScope (t.ancestors id)

/-- The nodes below and including one, parents first and children in slot order, at most `fuel` levels deep. -/
def walkUpTo (t : Tree) : Nat → NodeId → Except TreeError (List NodeId)
  | 0, _ => return []
  | fuel + 1, id => do
    let n ← t.node id
    return id :: (← n.children.mapM (walkUpTo t fuel)).flatten

/-- The nodes below and including one, parents first and children in slot order. -/
def walk (t : Tree) (start : NodeId) : Except TreeError (List NodeId) := t.walkUpTo (t.nodes.size + 1) start

/-- Whether a node or one of its operands passes a test, at most `fuel` levels deep. The bodies of functions and
modules are not evaluated where they stand. -/
def anyOperandUpTo (t : Tree) (test : Node → Bool) : Nat → NodeId → Except TreeError Bool
  | 0, _ => return false
  | fuel + 1, id => do
    let n ← t.node id
    if test n then return true
    else if n.kind = .functionBody ∨ n.kind = .module then return false
    else n.children.anyM (anyOperandUpTo t test fuel)

/-- Whether a node or one of its operands passes a test. -/
def anyOperand (t : Tree) (test : Node → Bool) (id : NodeId) : Except TreeError Bool :=
  t.anyOperandUpTo test (t.nodes.size + 1) id

/-- Whether evaluating a node may have side effects. -/
def mayHaveSideEffects (t : Tree) (id : NodeId) : Except TreeError Bool :=
  t.anyOperand (·.capabilities.sideEffects) id

/-- Whether evaluating a node may raise. -/
def mayRaise (t : Tree) (id : NodeId) : Except TreeError Bool := t.anyOperand (·.capabilities.mayRaise) id

/-- Whether evaluating a node itself may raise something a handler for `kind` catches. -/
def raisesInto (version : Version) (kind : ExceptionKind) (n : Node) : Bool :=
  match n.payload with
  | .raise raised => raised.kind.isSubclassOf version kind
  | _ => n.capabilities.mayRaise

/-- Whether evaluating a node may raise something a handler for `kind` catches. -/
def mayRaiseException (t : Tree) (version : Version) (kind : ExceptionKind) (id : NodeId) : Except TreeError Bool :=
  t.anyOperand (raisesInto version kind) id

/-- Whether evaluating a node always raises. -/
def alwaysRaises (t : Tree) (id : NodeId) : Except TreeError Bool := return (← t.capabilities id).alwaysRaises

/-- Whether evaluating a node can be noticed: it may have side effects or may raise. -/
def isObservable (t : Tree) (id : NodeId) : Except TreeError Bool := do
  if ← t.mayHaveSideEffects id then return true
  t.mayRaise id

end Specializer.Tree
