import Specializer.Proofs.Tree.Inversion
import Specializer.Proofs.Tree.Traversal

/-!
# Building a subtree

Code is built from its leaves: nodes are made one after the other, each over nodes that were made before and hang
nowhere yet. `Code` is what a subtree says, its handles forgotten, and `Tree.Spells` reads it off a tree.

`Tree.Building` describes the tree in the meantime, against the tree from before. Old nodes and variables are as they
were, and every new node hangs below one on the pile of unfinished parts. A node that is made takes its children off
the top of the pile and is put there in their place (`Building.newNode`), and declaring a variable does not matter
(`Building.bound`). So a computation is described by what it takes off the pile and what it puts there (`Tree.Puts`),
and such descriptions can be composed (`Puts.trans`, `Puts.push`).

At the end one part is left: then the walk from it finds exactly the new nodes (`Building.walk`).
-/

namespace Specializer

/-- What a subtree says: kind and payload of a node, and what its children say. -/
inductive Code where
  | node (kind : NodeKind) (payload : Payload) (parts : List Code)

namespace Code

theorem bottom_up {P : Code → Prop}
    (h : ∀ kind payload parts, (∀ part ∈ parts, P part) → P (.node kind payload parts)) (code : Code) : P code := by
  refine @Code.rec P (fun parts => ∀ part ∈ parts, P part) h (by simp) ?_ code
  intro part parts hpart hparts
  simpa using ⟨hpart, hparts⟩

mutual

/-- Kind and payload of every node of a code, parents first and children in order. -/
def labels : Code → List (NodeKind × Payload)
  | .node kind payload parts => (kind, payload) :: labelsOfParts parts

/-- The same for several codes, one after the other. -/
def labelsOfParts : List Code → List (NodeKind × Payload)
  | [] => []
  | part :: parts => labels part ++ labelsOfParts parts

end

theorem labelsOfParts_eq (parts : List Code) : labelsOfParts parts = parts.flatMap labels := by
  induction parts with
  | nil => rfl
  | cons part parts ih => rw [labelsOfParts, ih, List.flatMap_cons]

@[simp] theorem labels_node (kind : NodeKind) (payload : Payload) (parts : List Code) :
    (Code.node kind payload parts).labels = (kind, payload) :: parts.flatMap labels := by
  rw [labels, labelsOfParts_eq]

end Code

namespace Tree

variable {t₀ t t₁ t' : Tree} {source : SourceRef} {id x : NodeId} {n : Node} {code : Code} {label : NodeKind × Payload}
  {pile taken between given : List (NodeId × Code)}

/-- Kind and payload of a live node. -/
def label? (t : Tree) (id : NodeId) : Option (NodeKind × Payload) := (t.get? id).map fun n => (n.kind, n.payload)

theorem label?_of_get? (h : t.get? id = some n) : t.label? id = some (n.kind, n.payload) := by
  simp [label?, h]

/-- The subtree of a node says a code. All of it stems from one place of the source, and nothing is known about single
nodes of it. -/
inductive Spells (t : Tree) (source : SourceRef) : NodeId → Code → Prop where
  | node {id : NodeId} {n : Node} {kind : NodeKind} {payload : Payload} {parts : List Code} (live : t.get? id = some n)
    (label : (n.kind, n.payload) = (kind, payload)) (place : n.source = source) (unmarked : n.override = none)
    (children : List.Forall₂ (Spells t source) n.children parts) : Spells t source id (.node kind payload parts)

/-- The walk over a subtree reads its labels. -/
theorem Spells.label?_walk (h : t.Consistent) (hspells : t.Spells source id code) {ids : List NodeId}
    (hwalk : t.walk id = .ok ids) : ids.map t.label? = code.labels.map some := by
  induction code using Code.bottom_up generalizing id ids with
  | h kind payload parts ih =>
    obtain ⟨live, hlabel, -, -, hparts⟩ := hspells
    obtain ⟨blocks, hwalk', hchildren, -⟩ := h.walk_blocks live
    cases hwalk.symm.trans hwalk'
    rw [List.map_cons, label?_of_get? live, hlabel, Code.labels_node, List.map_cons]
    congr 1
    clear hwalk hwalk'
    -- one block for each part
    generalize Node.children _ = cs at hparts hchildren
    induction hparts generalizing blocks with
    | nil =>
      cases hchildren
      rfl
    | @cons c part cs parts hc _ ihs =>
      obtain ⟨block, blocks, hblock, hblocks, rfl⟩ := List.forall₂_cons_left_iff.1 hchildren
      rw [List.flatten_cons, List.map_append, ih part (by simp) hc hblock, List.flatMap_cons, List.map_append,
        ihs (fun part' hpart' => ih part' (by simp [hpart'])) blocks hblocks]

/-! ## Trees that grow -/

/-- Nodes and variables are added, and nothing changes but the links of nodes to their parents. -/
structure Enlarges (t t' : Tree) : Prop where
  nodes : ∀ {id n}, t.get? id = some n → ∃ p, t'.get? id = some { n with parent := p }
  bindings : t.bindings.toList <+: t'.bindings.toList

namespace Enlarges

theorem refl (t : Tree) : Enlarges t t := ⟨fun {_ n} hn => ⟨n.parent, hn⟩, List.prefix_rfl⟩

theorem trans (h : Enlarges t t₁) (h' : Enlarges t₁ t') : Enlarges t t' := by
  refine ⟨fun {id n} hn => ?_, h.bindings.trans h'.bindings⟩
  obtain ⟨p, hn₁⟩ := h.nodes hn
  obtain ⟨p', hn'⟩ := h'.nodes hn₁
  exact ⟨p', hn'⟩

theorem label? (h : Enlarges t t') (hid : t.label? id = some label) : t'.label? id = some label := by
  obtain ⟨n, hn, hlabel⟩ := Option.map_eq_some_iff.1 hid
  obtain ⟨p, hn'⟩ := h.nodes hn
  rw [label?_of_get? hn', hlabel]

theorem spells (h : Enlarges t t') (hspells : t.Spells source id code) : t'.Spells source id code := by
  induction code using Code.bottom_up generalizing id with
  | h kind payload parts ih =>
    obtain ⟨live, label, place, unmarked, hchildren⟩ := hspells
    obtain ⟨p, live'⟩ := h.nodes live
    refine .node live' label place unmarked (List.forall₂_iff_zip.2 ⟨hchildren.length_eq, fun hzip => ?_⟩)
    exact ih _ (List.of_mem_zip hzip).2 (List.forall₂_zip hchildren hzip)

theorem addNode (t : Tree) (kind : NodeKind) (source : SourceRef) (payload : Payload) (slots : List Slot) :
    Enlarges t (t.addNode kind source payload slots) :=
  ⟨exists_get?_addNode, by simp⟩

theorem bound (t : Tree) (v : Variable) : Enlarges t { t with bindings := t.bindings.push v } :=
  ⟨fun {_ n} hn => ⟨n.parent, hn⟩, by simp⟩

end Enlarges

/-! ## Unfinished parts -/

/-- A tree with new nodes, each of which hangs below one on the pile; those hang nowhere yet, and say what stands beside
them. -/
structure Building (t₀ : Tree) (source : SourceRef) (pile : List (NodeId × Code)) (t : Tree) : Prop where
  consistent : t₀.Consistent → t.Consistent
  root : t.root = t₀.root
  size : t₀.nodes.size ≤ t.nodes.size
  old : ∀ id, id.index < t₀.nodes.size → t.get? id = t₀.get? id
  bindings : t₀.bindings.toList <+: t.bindings.toList
  nodup : (pile.map (·.1)).Nodup
  top : ∀ part ∈ pile, t₀.nodes.size ≤ part.1.index ∧ (∃ n, t.get? part.1 = some n ∧ n.parent = none) ∧
    t.Spells source part.1 part.2
  new : ∀ id, t₀.nodes.size ≤ id.index → id.index < t.nodes.size →
    ∃ part ∈ pile, t.Below id part.1 ∧ ∃ label ∈ part.2.labels, t.label? id = some label

namespace Building

theorem start (t : Tree) (source : SourceRef) : Building t source [] t where
  consistent h := h
  root := rfl
  size := Nat.le_refl _
  old _ _ := rfl
  bindings := List.prefix_rfl
  nodup := List.nodup_nil
  top := by simp
  new _ hnew hlt := absurd hlt (Nat.not_lt.2 hnew)

section NewNode

variable {kind : NodeKind} {payload : Payload} {slots : List Slot} {part : NodeId × Code}
  (h : Building t₀ source (pile ++ taken) t) (hslots : slots.flatMap Slot.ids = taken.map (·.1))
include h hslots

/-- Only parts are linked to the new node. -/
theorem old_addNode (hid : id.index < t₀.nodes.size) : (t.addNode kind source payload slots).get? id = t₀.get? id := by
  have hne : id ≠ t.nextId := by
    rintro rfl
    exact absurd h.size (Nat.not_le.2 hid)
  have hnot : id ∉ slots.flatMap Slot.ids := by
    rw [hslots]
    intro hmem
    obtain ⟨part, hpart, rfl⟩ := List.mem_map.1 hmem
    exact absurd (h.top part (List.mem_append_right pile hpart)).1 (Nat.not_le.2 hid)
  rw [get?_addNode_of_ne kind source payload slots t hne, if_neg hnot, h.old id hid]

/-- The parts that stay on the pile are not linked. -/
theorem stays_addNode (hpart : part ∈ pile) : (t.addNode kind source payload slots).get? part.1 = t.get? part.1 := by
  obtain ⟨-, ⟨n, hn, -⟩, -⟩ := h.top part (List.mem_append_left taken hpart)
  have hnot : part.1 ∉ slots.flatMap Slot.ids := by
    have hnodup := h.nodup
    rw [List.map_append, List.nodup_append] at hnodup
    rw [hslots]
    exact fun hmem => hnodup.2.2 part.1 (List.mem_map_of_mem hpart) part.1 hmem rfl
  rw [get?_addNode_of_ne kind source payload slots t (ne_nextId_of_get? hn), if_neg hnot]

theorem spells_addNode :
    (t.addNode kind source payload slots).Spells source t.nextId (.node kind payload (taken.map (·.2))) := by
  refine .node (get?_addNode_nextId kind source payload slots t) rfl rfl rfl ?_
  change List.Forall₂ _ (slots.flatMap Slot.ids) _
  rw [hslots, List.forall₂_map_left_iff, List.forall₂_map_right_iff, List.forall₂_same]
  intro part hpart
  exact (Enlarges.addNode t kind source payload slots).spells (h.top part (List.mem_append_right pile hpart)).2.2

variable (hm : t.Makes kind payload slots)
include hm

/-- What hung below a part that was taken hangs below the new node. -/
theorem new_addNode (hnew : t₀.nodes.size ≤ id.index)
    (hlt : id.index < (t.addNode kind source payload slots).nodes.size) :
    ∃ part ∈ pile ++ [(t.nextId, .node kind payload (taken.map (·.2)))],
      (t.addNode kind source payload slots).Below id part.1 ∧
      ∃ label ∈ part.2.labels, (t.addNode kind source payload slots).label? id = some label := by
  have hgrows := Enlarges.addNode t kind source payload slots
  have hbelow {x y : NodeId} (hxy : t.Below x y) : (t.addNode kind source payload slots).Below x y :=
    Relation.ReflTransGen.mono (fun _ _ => hm.isParent) _ _ hxy
  by_cases hid : id = t.nextId
  · subst hid
    exact ⟨_, List.mem_append_right pile List.mem_cons_self, .refl, (kind, payload), by simp,
      label?_of_get? (get?_addNode_nextId kind source payload slots t)⟩
  · have hold : id.index < t.nodes.size := by
      rw [size_addNode] at hlt
      refine Nat.lt_of_le_of_ne (Nat.le_of_lt_succ hlt) fun e => hid ?_
      cases id
      exact congrArg NodeId.mk e
    obtain ⟨part, hpart, hpartBelow, label, hlabel, hid⟩ := h.new id hnew hold
    rcases List.mem_append.1 hpart with hpart | hpart
    · exact ⟨part, List.mem_append_left _ hpart, hbelow hpartBelow, label, hlabel, hgrows.label? hid⟩
    · have hlinked : (t.addNode kind source payload slots).IsParent part.1 t.nextId :=
        parent?_eq_some_iff.2 (hm.held (hslots ▸ List.mem_map_of_mem hpart))
      refine ⟨_, List.mem_append_right pile List.mem_cons_self, (hbelow hpartBelow).tail hlinked, label, ?_,
        hgrows.label? hid⟩
      rw [Code.labels_node]
      exact List.mem_cons_of_mem _ (List.mem_flatMap.2 ⟨part.2, List.mem_map_of_mem hpart, hlabel⟩)

/-- **A node that is made over the topmost parts takes their place on the pile.** -/
theorem newNode : Building t₀ source (pile ++ [(t.nextId, .node kind payload (taken.map (·.2)))])
    (t.addNode kind source payload slots) where
  consistent hc := (h.consistent hc).addNode hm
  root := by simp [h.root]
  size := by simp [Nat.le_succ_of_le h.size]
  old _ := h.old_addNode hslots
  bindings := by simpa using h.bindings
  nodup := by
    have hnodup := h.nodup
    rw [List.map_append, List.nodup_append] at hnodup
    rw [List.map_append, List.map_singleton, List.nodup_append]
    refine ⟨hnodup.1, by simp, fun a ha b hb => ?_⟩
    obtain ⟨part, hpart, rfl⟩ := List.mem_map.1 ha
    obtain ⟨-, ⟨n, hn, -⟩, -⟩ := h.top part (List.mem_append_left taken hpart)
    rw [List.mem_singleton.1 hb]
    exact ne_nextId_of_get? hn
  top part hpart := by
    rcases List.mem_append.1 hpart with hpart | hpart
    · obtain ⟨hnew, ⟨n, hn, hparent⟩, hspells⟩ := h.top part (List.mem_append_left taken hpart)
      exact ⟨hnew, ⟨n, (h.stays_addNode hslots hpart).trans hn, hparent⟩,
        (Enlarges.addNode t kind source payload slots).spells hspells⟩
    · obtain rfl := List.mem_singleton.1 hpart
      exact ⟨h.size, ⟨_, get?_addNode_nextId kind source payload slots t, rfl⟩, h.spells_addNode hslots⟩
  new _ := h.new_addNode hslots hm

end NewNode

/-- A new variable is of no concern to the nodes. -/
theorem bound (h : Building t₀ source pile t) (v : Variable) :
    Building t₀ source pile { t with bindings := t.bindings.push v } where
  consistent hc := (h.consistent hc).of_get?_eq (fun _ => rfl) (fun _ => (h.consistent hc).root) (by simp)
  root := h.root
  size := h.size
  old := h.old
  bindings := h.bindings.trans (by simp)
  nodup := h.nodup
  top part hpart := by
    obtain ⟨hnew, hlive, hspells⟩ := h.top part hpart
    exact ⟨hnew, hlive, (Enlarges.bound t v).spells hspells⟩
  new := h.new

/-- Under the invariant, parts are detached. -/
theorem loose (h : Building t₀ source pile t) (hc : t₀.Consistent) {part : NodeId × Code} (hpart : part ∈ pile) :
    t.Loose part.1 := by
  obtain ⟨hnew, hlive, -⟩ := h.top part hpart
  refine ⟨hlive, fun hroot => ?_⟩
  rw [h.root] at hroot
  obtain ⟨n, hn, -⟩ := hc.root hroot
  exact absurd (lt_size_of_get? hn) (Nat.not_lt.2 hnew)

/-- Old nodes hang below old nodes only. -/
theorem old_of_below (h : Building t₀ source pile t) (hc : t₀.Consistent) {y : NodeId} (hx : x.index < t₀.nodes.size)
    (hbelow : t.Below x y) : y.index < t₀.nodes.size := by
  induction hbelow with
  | refl => exact hx
  | tail _ hp ih =>
    rw [IsParent, parent?, h.old _ ih] at hp
    obtain ⟨n, hn, -⟩ := hc.parent_live hp
    exact lt_size_of_get? hn

/-- **Once a single part is left, the walk from it finds exactly the new nodes, and reads its code.** -/
theorem walk (h : Building t₀ source [(id, code)] t) (hc : t₀.Consistent) :
    ∃ ids, t.walk id = .ok ids ∧ ids.Nodup ∧ (∀ x, x ∈ ids ↔ t₀.nodes.size ≤ x.index ∧ x.index < t.nodes.size) ∧
      ids.map t.label? = code.labels.map some := by
  have hc' := h.consistent hc
  obtain ⟨hnew, ⟨n, hn, -⟩, hspells⟩ := h.top (id, code) (by simp)
  obtain ⟨ids, hwalk, hmem⟩ := hc'.walk_ok hn
  refine ⟨ids, hwalk, hc'.nodup_walk hn hwalk, fun x => ⟨fun hx => ?_, fun ⟨hnew', hlt⟩ => ?_⟩,
    hspells.label?_walk hc' hwalk⟩
  · have hbelow := (hmem x).1 hx
    obtain ⟨m, hm⟩ := live_below hbelow ⟨n, hn⟩
    refine ⟨Nat.not_lt.1 fun hold => ?_, lt_size_of_get? hm⟩
    exact absurd (h.old_of_below hc hold hbelow) (Nat.not_lt.2 hnew)
  · obtain ⟨part, hpart, hbelow, -⟩ := h.new x hnew' hlt
    obtain rfl := List.mem_singleton.1 hpart
    exact (hmem x).2 hbelow

end Building

/-! ## Computations that build -/

/-- From one tree to another, the parts on top of the pile give way to others. -/
structure Puts (source : SourceRef) (t t' : Tree) (taken given : List (NodeId × Code)) : Prop where
  enlarges : Enlarges t t'
  building : ∀ {t₀ pile}, Building t₀ source (pile ++ taken) t → Building t₀ source (pile ++ given) t'

namespace Puts

/-- What is built on an empty pile. -/
theorem built (h : Puts source t t' [] given) : t.Building source given t' := @h.building t [] (.start t source)

theorem refl (source : SourceRef) (t : Tree) (parts : List (NodeId × Code)) : Puts source t t parts parts :=
  ⟨.refl t, fun h => h⟩

theorem trans (h : Puts source t t₁ taken between) (h' : Puts source t₁ t' between given) :
    Puts source t t' taken given :=
  ⟨h.enlarges.trans h'.enlarges, fun hb => h'.building (h.building hb)⟩

/-- What lies further down stays there. -/
theorem push (h : Puts source t t' [] given) (below : List (NodeId × Code)) :
    Puts source t t' below (below ++ given) := by
  refine ⟨h.enlarges, fun {t₀ pile} hb => ?_⟩
  rw [← List.append_assoc]
  rw [← List.append_nil (pile ++ below)] at hb
  exact h.building hb

theorem newNode {kind : NodeKind} {payload : Payload} {slots : List Slot}
    (hslots : slots.flatMap Slot.ids = taken.map (·.1)) (hrun : TreeM.newNode kind source payload slots t = .ok id t') :
    Puts source t t' taken [(id, .node kind payload (taken.map (·.2)))] := by
  obtain ⟨hm, rfl, rfl⟩ := newNode_eq_ok hrun
  exact ⟨.addNode t kind source payload slots, fun hb => hb.newNode hslots hm⟩

theorem bound (source : SourceRef) (t : Tree) (v : Variable) :
    Puts source t { t with bindings := t.bindings.push v } taken taken :=
  ⟨.bound t v, fun hb => hb.bound v⟩

end Puts

end Tree

end Specializer
