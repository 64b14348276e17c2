import Specializer.Proofs.Computation
import Specializer.Proofs.Tree.Lookup

/-!
# Trees without what is known about single nodes

`Tree.plain` forgets what is known about single nodes in place of what their kinds say. Nearly every question to a tree
has the same answer without it: the shape of the tree, its scopes and units, the calls of builtins, the values of
operands and what is assigned where. Two trees with the same plain tree therefore agree on all of them.
-/

namespace Specializer

/-- A node without what is known about it alone. -/
def Node.plain (n : Node) : Node := { n with override := none }

namespace Node

variable (n : Node)

@[simp] theorem kind_plain : n.plain.kind = n.kind := rfl

@[simp] theorem parent_plain : n.plain.parent = n.parent := rfl

@[simp] theorem slots_plain : n.plain.slots = n.slots := rfl

@[simp] theorem source_plain : n.plain.source = n.source := rfl

@[simp] theorem payload_plain : n.plain.payload = n.payload := rfl

@[simp] theorem children_plain : n.plain.children = n.children := rfl

@[simp] theorem referent?_plain : n.plain.referent? = n.referent? := rfl

@[simp] theorem constant?_plain : n.plain.constant? = n.constant? := rfl

end Node

namespace Tree

/-- A tree without what is known about single nodes. -/
def plain (t : Tree) : Tree := { t with nodes := t.nodes.map (Option.map Node.plain) }

/-- Trees with the same plain tree agree on what depends on it alone. -/
theorem eq_of_plain {α : Type} (f : Tree → α) (hf : ∀ t, f t.plain = f t) {t t' : Tree} (h : t'.plain = t.plain) :
    f t' = f t := by
  rw [← hf t', h, hf t]

variable (t : Tree) (id : NodeId)

/-! ## Lookups -/

@[simp] theorem root_plain : t.plain.root = t.root := rfl

@[simp] theorem bindings_plain : t.plain.bindings = t.bindings := rfl

@[simp] theorem size_plain : t.plain.nodes.size = t.nodes.size := by simp [plain]

@[simp] theorem get?_plain : t.plain.get? id = (t.get? id).map Node.plain := by
  simp only [get?, plain, Array.getElem?_map]
  cases t.nodes[id.index]? with
  | none => rfl
  | some n? => cases n? <;> rfl

/-- A question about a node that does not look at what is known about it alone. -/
theorem bind_get?_plain {α : Type} {f g : Node → Option α} (h : ∀ n, f n.plain = g n) :
    (t.plain.get? id).bind f = (t.get? id).bind g := by
  cases hn : t.get? id with
  | none => simp [hn]
  | some n => simp [hn, h]

/-- A check of a node that does not look at what is known about it alone. -/
theorem bind_node_plain {α : Type} {f g : Node → Except TreeError α} (h : ∀ n, f n.plain = g n) :
    (t.plain.node id >>= f) = (t.node id >>= g) := by
  cases hn : t.get? id with
  | none => simp [node, hn]
  | some n => simp [node, hn, h]

@[simp] theorem kind_plain : t.plain.kind id = t.kind id := t.bind_node_plain id fun _ => rfl

@[simp] theorem source_plain : t.plain.source id = t.source id := t.bind_node_plain id fun _ => rfl

@[simp] theorem payload_plain : t.plain.payload id = t.payload id := t.bind_node_plain id fun _ => rfl

@[simp] theorem slot_plain (name : String) : t.plain.slot id name = t.slot id name :=
  t.bind_node_plain id fun _ => rfl

@[simp] theorem child_plain (name : String) : t.plain.child id name = t.child id name := by
  simp only [child, slot_plain, kind_plain]

@[simp] theorem childrenIn_plain (name : String) : t.plain.childrenIn id name = t.childrenIn id name := by
  simp only [childrenIn, slot_plain]

@[simp] theorem constant?_plain : t.plain.constant? id = t.constant? id := t.bind_get?_plain id fun _ => rfl

@[simp] theorem parent?_plain : t.plain.parent? id = t.parent? id := t.bind_get?_plain id fun _ => rfl

@[simp] theorem isLive_plain : t.plain.isLive id = t.isLive id := by simp [isLive]

theorem constant?_plain' : t.plain.constant? = t.constant? := funext fun id => t.constant?_plain id

/-! ## Walks -/

@[simp] theorem ancestorsUpTo_plain (fuel : Nat) : t.plain.ancestorsUpTo fuel id = t.ancestorsUpTo fuel id := by
  induction fuel generalizing id with
  | zero => rfl
  | succ fuel ih => simp only [ancestorsUpTo, parent?_plain, ih]

@[simp] theorem ancestors_plain : t.plain.ancestors id = t.ancestors id := by
  simp only [ancestors, size_plain, ancestorsUpTo_plain]

@[simp] theorem isReachable_plain : t.plain.isReachable id = t.isReachable id := by
  simp only [isReachable, ancestors_plain, isLive_plain, root_plain]

@[simp] theorem firstScope_plain (ids : List NodeId) : t.plain.firstScope ids = t.firstScope ids := by
  induction ids with
  | nil => rfl
  | cons id ids ih => simp only [firstScope, kind_plain, ih]

@[simp] theorem providerOf_plain : t.plain.providerOf id = t.providerOf id := by
  simp only [providerOf, ancestors_plain, firstScope_plain]
  exact t.bind_node_plain id fun _ => rfl

@[simp] theorem walkUpTo_plain (fuel : Nat) : t.plain.walkUpTo fuel id = t.walkUpTo fuel id := by
  induction fuel generalizing id with
  | zero => rfl
  | succ fuel ih =>
    have hbelow : t.plain.walkUpTo fuel = t.walkUpTo fuel := funext ih
    simp only [walkUpTo, hbelow]
    exact t.bind_node_plain id fun _ => rfl

@[simp] theorem walk_plain : t.plain.walk id = t.walk id := by simp only [walk, size_plain, walkUpTo_plain]

@[simp] theorem units_plain : t.plain.units = t.units := by
  simp only [units, root_plain, walk_plain, kind_plain]

/-! ## Variables -/

@[simp] theorem noteRebinding_plain (root : NodeId) (r : Rebindings) :
    t.plain.noteRebinding root r id = t.noteRebinding root r id := by
  simp only [noteRebinding, providerOf_plain]
  exact t.bind_node_plain id fun _ => rfl

@[simp] theorem rebindings_plain (root : NodeId) : t.plain.rebindings root = t.rebindings root := by
  have hnote : t.plain.noteRebinding root = t.noteRebinding root := by
    funext r id
    exact t.noteRebinding_plain id root r
  simp only [rebindings, walk_plain, hnote]

@[simp] theorem readOnlyVariable?_plain : t.plain.readOnlyVariable? id = t.readOnlyVariable? id :=
  t.bind_get?_plain id fun _ => rfl

/-! ## Calls -/

@[simp] theorem calledBuiltin?_plain (version : Version) :
    t.plain.calledBuiltin? version id = t.calledBuiltin? version id := by
  have hread : t.plain.readOnlyVariable? = t.readOnlyVariable? := funext fun _ => readOnlyVariable?_plain ..
  rw [calledBuiltin?, calledBuiltin?, child_plain, hread]
  exact t.bind_get?_plain id fun _ => rfl

@[simp] theorem readKeywords_plain (pairs : List NodeId) :
    CallSite.readKeywords t.plain pairs = CallSite.readKeywords t pairs := by
  induction pairs with
  | nil => rfl
  | cons pair pairs ih => simp only [CallSite.readKeywords, child_plain, constant?_plain', ih]

@[simp] theorem readSite_plain (variableId : VariableId) (name : String) :
    CallSite.read t.plain id variableId name = CallSite.read t id variableId name := by
  simp only [CallSite.read, child_plain, childrenIn_plain, readKeywords_plain, source_plain]

/-! ## Operands -/

@[simp] theorem constantEntries_plain (pairs : List NodeId) : t.plain.constantEntries pairs = t.constantEntries pairs := by
  induction pairs with
  | nil => rfl
  | cons pair pairs ih => simp only [constantEntries, child_plain, constant?_plain', ih]

@[simp] theorem constantOperands_plain (specs : List SlotSpec) :
    t.plain.constantOperands id specs = t.constantOperands id specs := by
  induction specs with
  | nil => rfl
  | cons spec specs ih => simp only [constantOperands, child_plain, constant?_plain, ih]

@[simp] theorem constantArguments_plain : t.plain.constantArguments id = t.constantArguments id := by
  simp only [constantArguments, kind_plain, constantOperands_plain, childrenIn_plain, constantEntries_plain]

@[simp] theorem parentPackage?_plain : t.plain.parentPackage? = t.parentPackage? := by
  cases hr : t.root with
  | none => simp [parentPackage?, hr]
  | some root =>
    simp only [parentPackage?, root_plain, hr]
    exact t.bind_get?_plain root fun _ => rfl

end Tree

end Specializer
