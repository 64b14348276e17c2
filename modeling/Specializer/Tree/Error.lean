import Specializer.Tree.Node

/-!
# Errors of tree operations

Each error is a broken rule of the tree, never a fault of the compiled program.
-/

namespace Specializer

/-- Why a tree operation was refused. -/
inductive TreeError where
  | detachedReplacement (node : NodeId)
  | alreadyAttached (node : NodeId)
  | stillAttached (node : NodeId)
  | staleNode (node : NodeId)
  | schemaMismatch (kind : NodeKind) (slot expected actual : String)
  | slotCount (kind : NodeKind) (expected actual : Nat)
  | corruptedParent (parent child : NodeId)
  | multipleParents (node : NodeId)
  | unknownSlot (kind : NodeKind) (slot : String)
  | unknownVariable (id : VariableId)
  | missingRoot
  | invalidPayload (kind : NodeKind) (message : String)
  deriving DecidableEq, Repr, Inhabited

namespace TreeError

/-- The name of the broken rule. -/
def label : TreeError → String
  | .detachedReplacement _ => "DetachedReplacement"
  | .alreadyAttached _ => "AlreadyAttached"
  | .stillAttached _ => "StillAttached"
  | .staleNode _ => "StaleNode"
  | .schemaMismatch .. => "SchemaMismatch"
  | .slotCount .. => "SlotCount"
  | .corruptedParent .. => "CorruptedParent"
  | .multipleParents _ => "MultipleParents"
  | .unknownSlot .. => "UnknownSlot"
  | .unknownVariable _ => "UnknownVariable"
  | .missingRoot => "MissingRoot"
  | .invalidPayload .. => "InvalidPayload"

/-- The message of an error. -/
def message : TreeError → String
  | .detachedReplacement node => s!"node {node.render} has no parent, use the root replacement entry point"
  | .alreadyAttached node => s!"node {node.render} is already attached to a tree"
  | .stillAttached node => s!"node {node.render} is still attached and cannot be finalized"
  | .staleNode node => s!"node {node.render} was finalized and must not be used"
  | .schemaMismatch kind slot expected actual => s!"{kind.name} expects {expected}, got {actual} for slot '{slot}'"
  | .slotCount kind expected actual => s!"{kind.name} expects {expected} slots, got {actual}"
  | .corruptedParent parent child => s!"node {child.render} claims parent {parent.render}, which does not hold it"
  | .multipleParents node => s!"node {node.render} is reachable through more than one parent"
  | .unknownSlot kind slot => s!"{kind.name} has no slot '{slot}'"
  | .unknownVariable id => s!"unknown variable {id.render}"
  | .missingRoot => "tree has no root"
  | .invalidPayload kind message => s!"invalid payload for {kind.name}: {message}"

end TreeError

end Specializer
