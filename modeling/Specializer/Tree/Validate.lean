import Specializer.Tree.Update

/-!
# Validation

Checks everything reachable from the root: every required slot is filled, every child links back to the node that
holds it, and no node is reached twice. Of several faults the first one on the way is reported; the way takes a node
before its children and later children before earlier ones.
-/

namespace Specializer.Tree

/-- Refuses a child that does not link back to its holder. -/
def ensureLinked (t : Tree) (parent : NodeId) : List NodeId → Except TreeError Unit
  | [] => return ()
  | child :: rest => do
    unless (← t.node child).parent = some parent do throw (.corruptedParent parent child)
    ensureLinked t parent rest

/-- Checks the pending nodes and what is below them, at most `fuel` nodes; `seen` holds those already checked. -/
def validateFrom (t : Tree) : Nat → List NodeId → List NodeId → Except TreeError Unit
  | _, _, [] => return ()
  | 0, _, _ :: _ => return ()
  | fuel + 1, seen, id :: pending => do
    if id ∈ seen then throw (.multipleParents id)
    let n ← t.node id
    checkSlots n.kind n.slots
    t.ensureLinked id n.children
    validateFrom t fuel (id :: seen) (n.children.reverse ++ pending)

/-- Checks everything reachable from the root. -/
def validate (t : Tree) : Except TreeError Unit := do
  match t.root with
  | none => throw .missingRoot
  | some root =>
    if let some parent := (← t.node root).parent then throw (.corruptedParent parent root)
    t.validateFrom (t.nodes.size + 1) [] [root]

end Specializer.Tree
