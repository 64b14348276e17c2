import Specializer.Proofs.Tree.Update

/-!
# Writes look their nodes up

An operation that changes a tree checks everything first and then writes. A write may as well look its node up again and
be refused for a stale handle: the operation is still the same, for every tree and every argument. The checks have seen
every node that is written to alive, and no write makes a handle stale (`Tree.isLive_modifyNode`), so no operation is
refused after its first write.

Each operation with more than one write is given with all its writes as `TreeM.write`: `newNode_writes`,
`replaceWith_writes`, `detach_writes` and `attach_writes`.
-/

namespace Specializer.TreeM

open Specializer.Tree

/-- Changes a node, which has to be live. -/
def write (id : NodeId) (f : Node → Node) : TreeM Unit := do
  let t ← get
  let _ ← ofExcept (t.node id)
  set (t.modifyNode id f)

/-- Gives a live node new slots. -/
def writeSlots (id : NodeId) (slots : List Slot) : TreeM Unit := write id fun n => { n with slots }

/-- Sets the parent link of a live node. -/
def writeParent (id : NodeId) (parent : Option NodeId) : TreeM Unit := write id fun n => { n with parent }

variable {ε α : Type} {t : Tree} {id parent child : NodeId}

/-! ## Single writes -/

theorem isLive_of_node_eq_ok {n : Node} (h : t.node id = .ok n) : t.isLive id = true :=
  isLive_iff.2 ⟨n, node_eq_ok_iff.1 h⟩

theorem isLive_of_loose (h : t.Loose id) : t.isLive id = true :=
  isLive_iff.2 (h.live.imp fun _ => And.left)

theorem isLive_of_editedSlots {edit : Slot → Option Slot} {slots : List Slot}
    (h : t.editedSlots parent child edit = .ok slots) : t.isLive parent = true := by
  obtain ⟨n, hn, -⟩ := bind_eq_ok_iff.1 h
  exact isLive_of_node_eq_ok hn

@[simp] theorem isLive_setSlots (slots : List Slot) : (t.setSlots parent slots).isLive id = t.isLive id :=
  isLive_modifyNode t parent id _

@[simp] theorem isLive_setParent (p : Option NodeId) : (t.setParent parent p).isLive id = t.isLive id :=
  isLive_modifyNode t parent id _

theorem write_ok (h : t.isLive id = true) (f : Node → Node) : write id f t = .ok () (t.modifyNode id f) := by
  obtain ⟨n, hn⟩ := isLive_iff.1 h
  rw [write, run_get_bind, run_check_ok (node_eq_ok_iff.2 hn)]
  rfl

theorem writeSlots_bind (h : t.isLive id = true) (slots : List Slot) (g : Unit → TreeM α) :
    (writeSlots id slots >>= g) t = g () (t.setSlots id slots) :=
  run_bind_of_ok (write_ok h _)

theorem writeParent_bind (h : t.isLive id = true) (p : Option NodeId) (g : Unit → TreeM α) :
    (writeParent id p >>= g) t = g () (t.setParent id p) :=
  run_bind_of_ok (write_ok h _)

/-- Children are linked one after the other. -/
theorem forM_writeParent : ∀ {ids : List NodeId} {t : Tree}, (∀ c ∈ ids, t.isLive c = true) →
    (forM ids fun c => writeParent c (some parent)) t = .ok () (t.adopt parent ids)
  | [], _, _ => rfl
  | c :: ids, t, h => by
    have hrest : ∀ d ∈ ids, (t.setParent c (some parent)).isLive d = true := fun d hd => by
      rw [isLive_setParent]
      exact h d (List.mem_cons_of_mem c hd)
    rw [List.forM_cons, writeParent_bind (h c List.mem_cons_self)]
    exact forM_writeParent hrest

/-- Two runs with the same check agree if they agree after it has succeeded. -/
theorem check_congr {x : Except TreeError ε} {f g : ε → TreeM α} (h : ∀ a, x = .ok a → f a t = g a t) :
    (ofExcept x >>= f) t = (ofExcept x >>= g) t := by
  cases hx : x with
  | ok a => exact h a hx
  | error e => rfl

/-! ## Operations -/

/-- The children were seen alive, so linking them is never refused half-way. -/
theorem newNode_writes (kind : NodeKind) (source : SourceRef) (payload : Payload) (slots : List Slot) :
    newNode kind source payload slots = (do
      let t ← get
      ofExcept (t.checkNewNode kind payload slots)
      forM (slots.flatMap Slot.ids) fun child => writeParent child (some t.nextId)
      modify fun t => { t with nodes := t.nodes.push (some { kind, source, payload, slots }) }
      return t.nextId) := by
  funext t
  refine check_congr fun _ hcheck => ?_
  have hlive : ∀ c ∈ slots.flatMap Slot.ids, t.isLive c = true := fun c hc =>
    isLive_of_loose ((checkNewNode_eq_ok_iff.1 hcheck).loose c hc)
  rw [run_bind_of_ok (forM_writeParent hlive)]
  rfl

/-- The parent, the new node and the old one are still alive when their turn comes. -/
theorem replaceWith_writes (old new : NodeId) :
    replaceWith old new = (do
      let t ← get
      match (← ofExcept (t.node old)).parent with
      | none => throw (.detachedReplacement old)
      | some parent =>
        ofExcept (t.ensureDetached new)
        if t.isAncestor new old then throw (.alreadyAttached new)
        let slots ← ofExcept (t.editedSlots parent old (Slot.replace? old new))
        writeSlots parent slots
        writeParent new (some parent)
        writeParent old none) := by
  funext t
  refine check_congr fun n hold => ?_
  cases n.parent with
  | none => rfl
  | some parent =>
    refine check_congr fun _ hnew => ?_
    by_cases habove : t.isAncestor new old
    · simp only [if_pos habove]
      rfl
    · simp only [if_neg habove]
      refine check_congr fun slots hslots => ?_
      rw [writeSlots_bind (isLive_of_editedSlots hslots)]
      rw [writeParent_bind (by simpa using isLive_of_loose (ensureDetached_eq_ok_iff.1 hnew))]
      exact (write_ok (by simpa using isLive_of_node_eq_ok hold) _).symm

theorem detach_writes (id : NodeId) :
    detach id = (do
      let t ← get
      match (← ofExcept (t.node id)).parent with
      | none =>
        if t.root = some id then set { t with root := none }
      | some parent =>
        let slots ← ofExcept (t.editedSlots parent id (Slot.remove? id))
        writeSlots parent slots
        writeParent id none
      return id) := by
  funext t
  refine check_congr fun n hid => ?_
  cases n.parent with
  | none => rfl
  | some parent =>
    refine check_congr fun slots hslots => ?_
    rw [writeSlots_bind (isLive_of_editedSlots hslots)]
    rw [writeParent_bind (by simpa using isLive_of_node_eq_ok hid)]
    rfl

theorem attach_writes (parent : NodeId) (slot : String) (child : NodeId) :
    attach parent slot child = (do
      let t ← get
      ofExcept (t.ensureDetached child)
      if child = parent ∨ t.isAncestor child parent then throw (.alreadyAttached child)
      let content ← ofExcept (t.slot parent slot)
      match content with
      | .one (some existing) => throw (.alreadyAttached existing)
      | .one none | .many _ =>
        let n ← ofExcept (t.node parent)
        let index := (n.kind.slotIndex? slot).getD 0
        let filled := match content with
          | .one _ => Slot.filled child
          | .many children => Slot.many (children ++ [child])
        writeSlots parent (n.slots.set index filled)
        writeParent child (some parent)) := by
  funext t
  refine check_congr fun _ hchild => ?_
  by_cases habove : child = parent ∨ t.isAncestor child parent
  · simp only [if_pos habove]
    rfl
  · simp only [if_neg habove]
    refine check_congr fun content _ => ?_
    rcases content with (_ | existing) | children
    case one.some => rfl
    all_goals
      refine check_congr fun n hn => ?_
      dsimp only
      rw [writeSlots_bind (isLive_of_node_eq_ok hn)]
      exact (write_ok (by simpa using isLive_of_loose (ensureDetached_eq_ok_iff.1 hchild)) _).symm

end Specializer.TreeM
