import Specializer.Tree.Walk

/-!
# Changing a tree

The operations that give a tree its shape: making a node over detached children, putting nodes in place of others,
taking them out, and tearing detached subtrees down. Both directions of the links change together, and a refused
operation changes nothing: every node that is written to has been seen alive by the checks before the first write, and
no write makes a handle stale (`TreeM.replaceWith_writes` and its siblings).
-/

namespace Specializer

/-- Refuses the first content that does not suit its slot. -/
def checkForms (kind : NodeKind) : List SlotSpec → List Slot → Except TreeError Unit
  | spec :: specs, content :: slots =>
    if content.fits spec.arity then checkForms kind specs slots
    else throw (.schemaMismatch kind spec.name spec.arity.describe content.describe)
  | _, _ => return ()

/-- Refuses slots that do not suit the kind: their number first, then the first one of the wrong form. -/
def checkSlots (kind : NodeKind) (slots : List Slot) : Except TreeError Unit :=
  if kind.slots.length = slots.length then checkForms kind kind.slots slots
  else throw (.slotCount kind kind.slots.length slots.length)

namespace Tree

/-- Refuses a node that has a parent or is the root. -/
def ensureDetached (t : Tree) (id : NodeId) : Except TreeError Unit := do
  let _ ← t.node id
  if t.isAttached id then throw (.alreadyAttached id)

/-- Refuses children that are not detached or are listed twice. -/
def ensureAdoptable (t : Tree) (seen : List NodeId) : List NodeId → Except TreeError Unit
  | [] => return ()
  | id :: rest => do
    t.ensureDetached id
    if id ∈ seen then throw (.alreadyAttached id)
    ensureAdoptable t (id :: seen) rest

/-- Refuses what cannot become a node: slots, payload and children, in this order. -/
def checkNewNode (t : Tree) (kind : NodeKind) (payload : Payload) (slots : List Slot) : Except TreeError Unit := do
  checkSlots kind slots
  unless payload.form = kind.payloadForm do
    throw (.invalidPayload kind s!"expected {kind.payloadForm.label} payload")
  if let .var id := payload then
    let _ ← t.variableAt id
  t.ensureAdoptable [] (slots.flatMap Slot.ids)

/-- Links children to a parent. -/
def adopt (t : Tree) (parent : NodeId) (ids : List NodeId) : Tree :=
  ids.foldl (fun t id => t.setParent id (some parent)) t

/-- The handle the next node gets. -/
def nextId (t : Tree) : NodeId := ⟨t.nodes.size⟩

/-- Appends a node and links its children to it. -/
def addNode (t : Tree) (kind : NodeKind) (source : SourceRef) (payload : Payload) (slots : List Slot) : Tree :=
  let linked := t.adopt t.nextId (slots.flatMap Slot.ids)
  { linked with nodes := linked.nodes.push (some { kind, source, payload, slots }) }

/-- Replaces the first slot an edit applies to. -/
def editFirst (edit : Slot → Option Slot) : List Slot → Option (List Slot)
  | [] => none
  | s :: rest => match edit s with
    | some s' => some (s' :: rest)
    | none => (editFirst edit rest).map (s :: ·)

/-- The slots of `parent` after an edit that has to find `child` there. -/
def editedSlots (t : Tree) (parent child : NodeId) (edit : Slot → Option Slot) : Except TreeError (List Slot) := do
  match editFirst edit (← t.node parent).slots with
  | some slots => return slots
  | none => throw (.corruptedParent parent child)

/-- Gives a node new slots. -/
def setSlots (t : Tree) (id : NodeId) (slots : List Slot) : Tree := t.modifyNode id fun n => { n with slots }

/-- Removes nodes from the arena; their handles become stale. -/
def erase (t : Tree) (ids : List NodeId) : Tree :=
  { t with nodes := ids.foldl (fun nodes id => nodes.setIfInBounds id.index none) t.nodes }

end Tree

namespace TreeM

/-- Makes a node over its slots. Every child has to be live and detached. -/
def newNode (kind : NodeKind) (source : SourceRef) (payload : Payload) (slots : List Slot) : TreeM NodeId := do
  let t ← get
  ofExcept (t.checkNewNode kind payload slots)
  set (t.addNode kind source payload slots)
  return t.nextId

/-- Makes a detached node the root and returns the one before. -/
def setRoot (id : NodeId) : TreeM (Option NodeId) := do
  let t ← get
  ofExcept (t.ensureDetached id)
  set { t with root := some id }
  return t.root

/-- Puts the detached node `new` in the place of `old`, which ends up detached. The root has no place to replace. -/
def replaceWith (old new : NodeId) : TreeM Unit := do
  let t ← get
  match (← ofExcept (t.node old)).parent with
  | none => throw (.detachedReplacement old)
  | some parent =>
    ofExcept (t.ensureDetached new)
    if t.isAncestor new old then throw (.alreadyAttached new)
    let slots ← ofExcept (t.editedSlots parent old (Slot.replace? old new))
    set (((t.setSlots parent slots).setParent new (some parent)).setParent old none)

/-- Puts a detached node in the place of the root and returns the old root, now detached. -/
def replaceRoot (new : NodeId) : TreeM NodeId := do
  let t ← get
  match t.root with
  | none => throw .missingRoot
  | some old =>
    ofExcept (t.ensureDetached new)
    set { t with root := some new }
    return old

/-- Takes a node out of its parent's slot, or off the root. A detached node stays as it is. -/
def detach (id : NodeId) : TreeM NodeId := do
  let t ← get
  match (← ofExcept (t.node id)).parent with
  | none =>
    if t.root = some id then set { t with root := none }
  | some parent =>
    let slots ← ofExcept (t.editedSlots parent id (Slot.remove? id))
    set ((t.setSlots parent slots).setParent id none)
  return id

/-- Puts a detached node into an empty slot, or at the end of a sequence. -/
def attach (parent : NodeId) (slot : String) (child : NodeId) : TreeM Unit := do
  let t ← get
  ofExcept (t.ensureDetached child)
  if child = parent ∨ t.isAncestor child parent then throw (.alreadyAttached child)
  let content ← ofExcept (t.slot parent slot)
  match content with
  | .one (some existing) => throw (.alreadyAttached existing)
  | .one none | .many _ =>
    let n ← ofExcept (t.node parent)
    let index := (n.kind.slotIndex? slot).getD 0
    let filled := match content with
      | .one _ => Slot.filled child
      | .many children => Slot.many (children ++ [child])
    set ((t.setSlots parent (n.slots.set index filled)).setParent child (some parent))

/-- Gives a scope its body. -/
def setBody (scope body : NodeId) : TreeM Unit := attach scope "body" body

/-- Takes the node in a slot for a single node out. -/
def detachSlot (id : NodeId) (slot : String) : TreeM (Option NodeId) := do
  match ← query (·.child id slot) with
  | none => return none
  | some child => return some (← detach child)

/-- Tears a detached node down with everything below it. -/
def finalize (id : NodeId) : TreeM Unit := do
  let t ← get
  if t.isAttached id then throw (.stillAttached id)
  let ids ← ofExcept (t.walk id)
  set (t.erase ids)

/-- States what is known about one node, in place of what its kind says. -/
def setCapabilities (id : NodeId) (capabilities : Capabilities) : TreeM Unit := do
  let t ← get
  let _ ← ofExcept (t.node id)
  set (t.modifyNode id fun n => { n with override := some capabilities })

/-- Declares a variable of a scope. -/
def declareVariable (owner : NodeId) (name : String) (kind : VariableKind) : TreeM VariableId := do
  let t ← get
  let _ ← ofExcept (t.node owner)
  set { t with bindings := t.bindings.push { name, owner, kind } }
  return ⟨t.bindings.size⟩

/-- States whether a variable is known never to be rebound. -/
def setReadOnly (id : VariableId) (readOnly : Bool) : TreeM Unit := do
  let t ← get
  let v ← ofExcept (t.variableAt id)
  set { t with bindings := t.bindings.setIfInBounds id.index { v with readOnly } }

end TreeM

/-- Whether a node reads a variable. -/
def Node.isReferenceTo (n : Node) (id : VariableId) : Bool := n.kind == .variableRef && n.referent? == some id

/-- How many reachable nodes read a variable. -/
def Tree.referenceCount (t : Tree) (id : VariableId) : Except TreeError Nat := do
  match t.root with
  | none => return 0
  | some root => return (← t.walk root).countP fun node => (t.get? node).any (·.isReferenceTo id)

/-- Counts the reachable references to a variable again. -/
def TreeM.reconsiderVariable (id : VariableId) : TreeM Nat := do
  let t ← get
  let v ← TreeM.ofExcept (t.variableAt id)
  let count ← TreeM.ofExcept (t.referenceCount id)
  set { t with bindings := t.bindings.setIfInBounds id.index { v with usageCount := count } }
  return count

end Specializer
