import Specializer.Tree.Update

/-!
# What updates show

One equation for each way a tree is written: which node a handle has afterwards. Root and variables are read off by
`simp`. Later modules look at updated trees through these equations only.
-/

namespace Specializer.Tree

variable {t : Tree} {id other parent : NodeId} {n : Node}

theorem isLive_iff : t.isLive id = true ↔ ∃ n, t.get? id = some n := by
  simp [isLive, Option.isSome_iff_exists]

theorem parent?_of_get? (h : t.get? id = some n) : t.parent? id = n.parent := by
  simp [parent?, h]

theorem parent?_eq_some_iff : t.parent? id = some parent ↔ ∃ n, t.get? id = some n ∧ n.parent = some parent := by
  simp [parent?, Option.bind_eq_some_iff]

theorem node_of_get? (h : t.get? id = some n) : t.node id = .ok n := node_eq_ok_iff.2 h

theorem kind_eq_ok_iff {kind : NodeKind} : t.kind id = .ok kind ↔ ∃ n, t.get? id = some n ∧ n.kind = kind := by
  cases hn : t.get? id with
  | none =>
    have hkind : t.kind id = .error (.staleNode id) := by
      rw [Tree.kind, node_eq_error_iff.2 ⟨hn, rfl⟩]
      rfl
    simp [hkind]
  | some n =>
    have hkind : t.kind id = .ok n.kind := by
      rw [Tree.kind, node_of_get? hn]
      rfl
    simp [hkind]

theorem lt_size_of_get? (h : t.get? id = some n) : id.index < t.nodes.size := by
  refine Nat.lt_of_not_le fun hge => ?_
  simp [get?, Array.getElem?_eq_none hge] at h

theorem get?_nextId (t : Tree) : t.get? t.nextId = none := by
  simp [get?, nextId]

theorem ne_nextId_of_get? (h : t.get? id = some n) : id ≠ t.nextId := by
  rintro rfl
  simp [get?_nextId] at h

/-! ## Changes of single nodes -/

theorem get?_modifyNode (t : Tree) (id other : NodeId) (f : Node → Node) :
    (t.modifyNode id f).get? other = if other = id then (t.get? other).map f else t.get? other := by
  split
  next h => rw [h, get?_modifyNode_self]
  next h => exact get?_modifyNode_of_ne t f h

@[simp] theorem root_modifyNode (t : Tree) (id : NodeId) (f : Node → Node) : (t.modifyNode id f).root = t.root := rfl

@[simp] theorem bindings_modifyNode (t : Tree) (id : NodeId) (f : Node → Node) :
    (t.modifyNode id f).bindings = t.bindings := rfl

theorem get?_setParent (t : Tree) (id other : NodeId) (p : Option NodeId) :
    (t.setParent id p).get? other = if other = id then (t.get? other).map ({ · with parent := p }) else t.get? other :=
  get?_modifyNode t id other _

@[simp] theorem root_setParent (t : Tree) (id : NodeId) (p : Option NodeId) : (t.setParent id p).root = t.root := rfl

@[simp] theorem bindings_setParent (t : Tree) (id : NodeId) (p : Option NodeId) :
    (t.setParent id p).bindings = t.bindings := rfl

@[simp] theorem size_setParent (t : Tree) (id : NodeId) (p : Option NodeId) :
    (t.setParent id p).nodes.size = t.nodes.size := size_modifyNode t id _

theorem get?_setSlots (t : Tree) (id other : NodeId) (slots : List Slot) :
    (t.setSlots id slots).get? other = if other = id then (t.get? other).map ({ · with slots }) else t.get? other :=
  get?_modifyNode t id other _

@[simp] theorem root_setSlots (t : Tree) (id : NodeId) (slots : List Slot) : (t.setSlots id slots).root = t.root := rfl

@[simp] theorem bindings_setSlots (t : Tree) (id : NodeId) (slots : List Slot) :
    (t.setSlots id slots).bindings = t.bindings := rfl

@[simp] theorem size_setSlots (t : Tree) (id : NodeId) (slots : List Slot) :
    (t.setSlots id slots).nodes.size = t.nodes.size := size_modifyNode t id _

/-! ## Adoption and new nodes -/

theorem get?_adopt (t : Tree) (parent other : NodeId) (ids : List NodeId) :
    (t.adopt parent ids).get? other =
      if other ∈ ids then (t.get? other).map ({ · with parent := some parent }) else t.get? other := by
  induction ids generalizing t with
  | nil => simp [adopt]
  | cons id rest ih =>
    have step : t.adopt parent (id :: rest) = (t.setParent id (some parent)).adopt parent rest := rfl
    rw [step, ih, get?_setParent]
    by_cases hid : other = id <;> by_cases hrest : other ∈ rest <;> simp [hid, hrest, Option.map_map, Function.comp_def]

@[simp] theorem root_adopt (t : Tree) (parent : NodeId) (ids : List NodeId) : (t.adopt parent ids).root = t.root := by
  induction ids generalizing t with
  | nil => rfl
  | cons id rest ih => exact ih (t.setParent id (some parent))

@[simp] theorem bindings_adopt (t : Tree) (parent : NodeId) (ids : List NodeId) :
    (t.adopt parent ids).bindings = t.bindings := by
  induction ids generalizing t with
  | nil => rfl
  | cons id rest ih => exact ih (t.setParent id (some parent))

@[simp] theorem size_adopt (t : Tree) (parent : NodeId) (ids : List NodeId) :
    (t.adopt parent ids).nodes.size = t.nodes.size := by
  induction ids generalizing t with
  | nil => rfl
  | cons id rest ih => exact (ih (t.setParent id (some parent))).trans (size_setParent t id _)

section NewNode

variable (kind : NodeKind) (source : SourceRef) (payload : Payload) (slots : List Slot)

theorem get?_addNode_nextId (t : Tree) :
    (t.addNode kind source payload slots).get? t.nextId = some { kind, source, payload, slots } := by
  simp only [addNode, get?, nextId, Array.getElem?_push, size_adopt, if_true, Option.join_some]

theorem get?_addNode_of_ne (t : Tree) (h : other ≠ t.nextId) :
    (t.addNode kind source payload slots).get? other =
      if other ∈ slots.flatMap Slot.ids then (t.get? other).map ({ · with parent := some t.nextId })
      else t.get? other := by
  have hne : other.index ≠ t.nodes.size := fun e => h (by cases other; simp_all [nextId])
  rw [← get?_adopt t t.nextId other (slots.flatMap Slot.ids)]
  simp only [addNode, get?, Array.getElem?_push, size_adopt, if_neg hne]

@[simp] theorem root_addNode (t : Tree) : (t.addNode kind source payload slots).root = t.root := by simp [addNode]

@[simp] theorem bindings_addNode (t : Tree) : (t.addNode kind source payload slots).bindings = t.bindings := by
  simp [addNode]

@[simp] theorem size_addNode (t : Tree) : (t.addNode kind source payload slots).nodes.size = t.nodes.size + 1 := by
  simp [addNode]

end NewNode

/-! ## Removal -/

theorem get?_erase (t : Tree) (ids : List NodeId) (other : NodeId) :
    (t.erase ids).get? other = if other ∈ ids then none else t.get? other := by
  induction ids generalizing t with
  | nil => simp [erase]
  | cons id rest ih =>
    have step : t.erase (id :: rest) = ({ t with nodes := t.nodes.setIfInBounds id.index none } : Tree).erase rest := rfl
    rw [step, ih]
    by_cases hid : other = id
    · subst hid
      have gone : (t.nodes.setIfInBounds other.index none)[other.index]?.join = none := by
        rw [Array.getElem?_setIfInBounds_self]
        split <;> rfl
      simp [get?, gone]
    · have hne : id.index ≠ other.index := fun e => hid (by cases id; cases other; simp_all)
      simp [get?, hid, Array.getElem?_setIfInBounds_ne hne]

theorem get?_erase_of_notMem {ids : List NodeId} (h : id ∉ ids) : (t.erase ids).get? id = t.get? id := by
  rw [get?_erase, if_neg h]

theorem notMem_of_get?_erase {ids : List NodeId} (h : (t.erase ids).get? id = some n) : id ∉ ids := by
  intro hid
  rw [get?_erase, if_pos hid] at h
  cases h

/-- What is left after a removal was there before. -/
theorem get?_of_get?_erase {ids : List NodeId} (h : (t.erase ids).get? id = some n) : t.get? id = some n := by
  rw [get?_erase] at h
  split at h
  · cases h
  · exact h

@[simp] theorem root_erase (t : Tree) (ids : List NodeId) : (t.erase ids).root = t.root := rfl

@[simp] theorem bindings_erase (t : Tree) (ids : List NodeId) : (t.erase ids).bindings = t.bindings := rfl

@[simp] theorem size_erase (t : Tree) (ids : List NodeId) : (t.erase ids).nodes.size = t.nodes.size := by
  have key (nodes : Array (Option Node)) :
      (ids.foldl (fun nodes id => nodes.setIfInBounds id.index none) nodes).size = nodes.size := by
    induction ids generalizing nodes with
    | nil => rfl
    | cons id rest ih => rw [List.foldl_cons, ih, Array.size_setIfInBounds]
  exact key t.nodes

end Specializer.Tree
