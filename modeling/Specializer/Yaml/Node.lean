import Specializer.Yaml.Scalar.Basic

/-!
# Nodes

The content of a document: scalars, sequences and mappings, some of them under an anchor, and references to those.
-/

namespace Specializer.Yaml

/-- A node of a document. -/
inductive Node where
  /-- A scalar with the octets of its tag, if it has one, and its text. -/
  | scalar (style : ScalarStyle) (tag : Option (List UInt8)) (text : String)
  | sequence (items : List Node)
  | mapping (entries : List (Node × Node))
  /-- A node under the anchor with a number. -/
  | anchored (anchor : Nat) (node : Node)
  /-- The node under the anchor with a number. -/
  | reference (anchor : Nat)
  deriving Inhabited

namespace Node

/-- What stands where nothing is written. -/
def empty : Node := .scalar .plain none ""

/-- Whether nothing is written in place of a node; a tag without content counts as nothing too. -/
def isEmpty : Node → Bool
  | .scalar .plain _ "" => true
  | _ => false

/-- The text of a scalar. -/
def text? : Node → Option String
  | .scalar _ _ text => some text
  | _ => none

mutual

/-- The nodes under anchors, in the order they begin in. -/
def anchors : Node → List (Nat × Node)
  | .scalar _ _ _ | .reference _ => []
  | .sequence items => itemAnchors items
  | .mapping entries => entryAnchors entries
  | .anchored anchor node => (anchor, node) :: anchors node

/-- The nodes under anchors inside the items of a sequence. -/
def itemAnchors : List Node → List (Nat × Node)
  | [] => []
  | item :: items => anchors item ++ itemAnchors items

/-- The nodes under anchors inside the entries of a mapping. -/
def entryAnchors : List (Node × Node) → List (Nat × Node)
  | [] => []
  | (key, value) :: entries => anchors key ++ anchors value ++ entryAnchors entries

end

/-- What a node of a document stands for: the node itself without its anchor, or the last node under the anchor it
refers to. -/
def target (root : Node) : Node → Node
  | .anchored _ node => node
  | .reference anchor =>
    match root.anchors.reverse.find? (·.1 == anchor) with
    | some (_, node) => node
    | none => .reference anchor
  | node => node

end Node

end Specializer.Yaml
