import Mathlib.Logic.Relation
import Mathlib.Tactic.ByContra
import Specializer.Proofs.Computation
import Specializer.Proofs.Tree.Lookup

/-!
# The invariant of the arena

`Tree.Consistent` says what every tree satisfies, whatever was done to it: nodes suit their kinds, the two directions of
the links agree, the root stands alone, and no node is above itself. The updates of a tree keep it:

* a new node over detached children (`Consistent.addNode`);
* any exchange of the children of one node (`Consistent.relinked`), of which replacing, taking out and putting in are
  the three cases;
* the removal of a node together with everything below it (`Consistent.erase`).
-/

namespace Specializer

/-- Whether a slot holds a sequence rather than a single node. -/
def Slot.isSequence : Slot → Bool
  | .one _ => false
  | .many _ => true

/-- A node suits its kind: as many slots as the schema has, sequences exactly where it has them, a payload of the right
form, and a declared variable if the payload is one. A required slot may be empty. -/
structure Node.Conforms (t : Tree) (n : Node) : Prop where
  forms : n.slots.map Slot.isSequence = n.kind.slots.map (·.arity == .sequence)
  payload : n.payload.form = n.kind.payloadForm
  declared : ∀ v, n.payload = .var v → v.index < t.bindings.size

namespace Tree

/-- The parent link of the first node leads to the second. -/
def IsParent (t : Tree) (child parent : NodeId) : Prop := t.parent? child = some parent

/-- **The invariant of the arena.** -/
structure Consistent (t : Tree) : Prop where
  conforms : ∀ {id n}, t.get? id = some n → n.Conforms t
  /-- What a live node holds is live and links back to it. -/
  held : ∀ {p n c}, t.get? p = some n → c ∈ n.children → ∃ m, t.get? c = some m ∧ m.parent = some p
  /-- What a live node links to is live and holds it exactly once. -/
  holder : ∀ {c m p}, t.get? c = some m → m.parent = some p → ∃ n, t.get? p = some n ∧ n.children.count c = 1
  root : ∀ {r}, t.root = some r → ∃ n, t.get? r = some n ∧ n.parent = none
  acyclic : ∀ id, ¬ Relation.TransGen t.IsParent id id

theorem consistent_empty : Consistent {} where
  conforms h := by simp [get?] at h
  held h := by simp [get?] at h
  holder h := by simp [get?] at h
  root h := by simp at h
  acyclic id h := by
    obtain ⟨_, hp, -⟩ := Relation.TransGen.head'_iff.1 h
    simp [IsParent, parent?, get?] at hp

namespace Consistent

variable {t t' : Tree} {p c r id : NodeId} {n m : Node}

theorem isParent_iff (h : t.Consistent) (hp : t.get? p = some n) : t.IsParent c p ↔ c ∈ n.children := by
  constructor
  · intro hc
    obtain ⟨m, hm, hmp⟩ := parent?_eq_some_iff.1 hc
    obtain ⟨n', hn', hcount⟩ := h.holder hm hmp
    rw [hp, Option.some.injEq] at hn'
    subst hn'
    exact List.count_pos_iff.1 (by omega)
  · intro hc
    exact parent?_eq_some_iff.2 (h.held hp hc)

theorem count_children (h : t.Consistent) (hp : t.get? p = some n) (hc : c ∈ n.children) : n.children.count c = 1 := by
  obtain ⟨m, hm, hmp⟩ := h.held hp hc
  obtain ⟨n', hn', hcount⟩ := h.holder hm hmp
  rw [hp, Option.some.injEq] at hn'
  exact hn' ▸ hcount

theorem nodup_children (h : t.Consistent) (hp : t.get? p = some n) : n.children.Nodup :=
  List.nodup_iff_count.2 fun c => by
    by_cases hc : c ∈ n.children
    · exact Nat.le_of_eq (h.count_children hp hc)
    · simp [List.count_eq_zero.2 hc]

theorem parent_live (h : t.Consistent) (hc : t.IsParent c p) : ∃ n, t.get? p = some n ∧ c ∈ n.children := by
  obtain ⟨m, hm, hmp⟩ := parent?_eq_some_iff.1 hc
  obtain ⟨n, hn, hcount⟩ := h.holder hm hmp
  exact ⟨n, hn, List.count_pos_iff.1 (by omega)⟩

theorem parent?_root (h : t.Consistent) (hr : t.root = some r) : t.parent? r = none := by
  obtain ⟨n, hn, hp⟩ := h.root hr
  rw [parent?_of_get? hn, hp]

theorem ne_root_of_parent? (h : t.Consistent) (hc : t.parent? c = some p) : t.root ≠ some c := by
  intro hr
  rw [h.parent?_root hr] at hc
  cases hc

theorem ne_of_isParent (h : t.Consistent) (hc : t.IsParent c p) : c ≠ p := by
  rintro rfl
  exact h.acyclic c (.single hc)

end Consistent

/-! ## New edges -/

/-- Edges into a node from nodes it does not lead to close no cycle. -/
theorem acyclic_of_edges {R R' : NodeId → NodeId → Prop} {S : NodeId → Prop} {p : NodeId}
    (acyclic : ∀ id, ¬ Relation.TransGen R id id) (edges : ∀ {x y}, R' x y → R x y ∨ (S x ∧ y = p))
    (apart : ∀ x, S x → ¬ Relation.ReflTransGen R p x) (id : NodeId) : ¬ Relation.TransGen R' id id := by
  have key {x y} (h : Relation.TransGen R' x y) :
      Relation.TransGen R x y ∨ ∃ z, S z ∧ Relation.ReflTransGen R x z ∧ Relation.ReflTransGen R p y := by
    induction h with
    | single hxy =>
      rcases edges hxy with hR | ⟨hS, rfl⟩
      · exact Or.inl (.single hR)
      · exact Or.inr ⟨x, hS, .refl, .refl⟩
    | tail _ hyz ih =>
      rcases edges hyz with hR | ⟨hS, rfl⟩
      · rcases ih with ih | ⟨z, hz, hxz, hpy⟩
        · exact Or.inl (ih.tail hR)
        · exact Or.inr ⟨z, hz, hxz, hpy.tail hR⟩
      · rcases ih with ih | ⟨z, hz, hxz, hpy⟩
        · exact Or.inr ⟨_, hS, ih.to_reflTransGen, .refl⟩
        · exact absurd hpy (apart _ hS)
  intro h
  rcases key h with h | ⟨z, hz, hxz, hpx⟩
  · exact acyclic id h
  · exact apart z hz (hpx.trans hxz)

/-! ## The checks of a new node -/

theorem fits_isSequence {s : Slot} {a : Arity} (h : s.fits a = true) : s.isSequence = (a == .sequence) := by
  rcases s with (_ | _) | _ <;> cases a <;> first | rfl | simp [Slot.fits] at h

theorem checkForms_eq_ok {kind : NodeKind} : ∀ {specs : List SlotSpec} {slots : List Slot},
    specs.length = slots.length → checkForms kind specs slots = .ok () →
      slots.map Slot.isSequence = specs.map (·.arity == .sequence)
  | [], [], _, _ => rfl
  | spec :: specs, s :: slots, hlen, h => by
    simp only [checkForms] at h
    split at h
    · next hfits =>
      simp only [List.map_cons, fits_isSequence hfits,
        checkForms_eq_ok (by simpa using hlen) h]
    · cases h

theorem checkSlots_eq_ok {kind : NodeKind} {slots : List Slot} (h : checkSlots kind slots = .ok ()) :
    slots.map Slot.isSequence = kind.slots.map (·.arity == .sequence) := by
  unfold checkSlots at h
  split at h
  · next hlen => exact checkForms_eq_ok hlen h
  · cases h

/-- A node that is live, has no parent and is not the root. -/
structure Loose (t : Tree) (id : NodeId) : Prop where
  live : ∃ n, t.get? id = some n ∧ n.parent = none
  not_root : t.root ≠ some id

theorem Loose.not_isParent {t : Tree} {id parent : NodeId} (h : t.Loose id) : ¬ t.IsParent id parent := by
  obtain ⟨n, hn, hp⟩ := h.live
  simp [IsParent, parent?_of_get? hn, hp]

theorem Loose.ne_nextId {t : Tree} {id : NodeId} (h : t.Loose id) : id ≠ t.nextId := by
  obtain ⟨n, hn, -⟩ := h.live
  exact ne_nextId_of_get? hn

theorem IsParent.ne_nextId {t : Tree} {id parent : NodeId} (h : t.IsParent id parent) : id ≠ t.nextId := by
  obtain ⟨n, hn, -⟩ := parent?_eq_some_iff.1 h
  exact ne_nextId_of_get? hn

theorem ensureDetached_eq_ok_iff {t : Tree} {id : NodeId} : t.ensureDetached id = .ok () ↔ t.Loose id := by
  unfold ensureDetached
  cases hn : t.get? id with
  | none =>
    have hnode : t.node id = .error (.staleNode id) := node_eq_error_iff.2 ⟨hn, rfl⟩
    rw [hnode]
    constructor
    · intro h; cases h
    · rintro ⟨⟨n, h, -⟩, -⟩
      simp [hn] at h
  | some n =>
    rw [node_of_get? hn]
    show (if t.isAttached id = true then Except.error (TreeError.alreadyAttached id) else pure ()) = .ok () ↔ _
    have hattached : t.isAttached id = true ↔ t.root = some id ∨ n.parent.isSome := by
      simp [isAttached, parent?_of_get? hn]
    by_cases h : t.isAttached id = true
    · rw [if_pos h]
      constructor
      · intro h'; cases h'
      · rintro ⟨⟨n', hn', hp⟩, hroot⟩
        rw [hn, Option.some.injEq] at hn'
        subst hn'
        rcases hattached.1 h with h | h
        · exact absurd h hroot
        · simp [hp] at h
    · rw [if_neg h]
      refine ⟨fun _ => ⟨⟨n, hn, ?_⟩, fun e => h (hattached.2 (Or.inl e))⟩, fun _ => rfl⟩
      cases hp : n.parent with
      | none => rfl
      | some q => exact absurd (hattached.2 (Or.inr (by simp [hp]))) h

theorem ensureAdoptable_eq_ok_iff {t : Tree} : ∀ {ids seen : List NodeId},
    t.ensureAdoptable seen ids = .ok () ↔ (∀ id ∈ ids, t.Loose id) ∧ ids.Nodup ∧ ∀ id ∈ ids, id ∉ seen
  | [], seen => by simp [ensureAdoptable, pure, Except.pure]
  | id :: rest, seen => by
    rw [ensureAdoptable]
    cases hd : t.ensureDetached id with
    | error e =>
      have : ¬ t.Loose id := fun hl => by rw [ensureDetached_eq_ok_iff.2 hl] at hd; cases hd
      simp [this]
    | ok u =>
      have hl : t.Loose id := ensureDetached_eq_ok_iff.1 hd
      by_cases hs : id ∈ seen
      · simp [hs]
      · simp only [ok_bind, if_neg hs, ensureAdoptable_eq_ok_iff, List.mem_cons, List.nodup_cons, forall_eq_or_imp]
        grind

/-- What a node needs to be made. -/
structure Makes (t : Tree) (kind : NodeKind) (payload : Payload) (slots : List Slot) : Prop where
  complete : checkSlots kind slots = .ok ()
  form : payload.form = kind.payloadForm
  declared : ∀ v, payload = .var v → v.index < t.bindings.size
  loose : ∀ id ∈ slots.flatMap Slot.ids, t.Loose id
  nodup : (slots.flatMap Slot.ids).Nodup

theorem variableAt_eq_ok_iff {t : Tree} {v : VariableId} {x : Variable} :
    t.variableAt v = .ok x ↔ t.bindings[v.index]? = some x := by
  unfold variableAt
  split <;> simp_all

theorem exists_variableAt_iff {t : Tree} {v : VariableId} :
    (∃ x, t.variableAt v = .ok x) ↔ v.index < t.bindings.size := by
  simp only [variableAt_eq_ok_iff, ← Option.isSome_iff_exists]
  simp

theorem checkNewNode_eq_ok_iff {t : Tree} {kind : NodeKind} {payload : Payload} {slots : List Slot} :
    t.checkNewNode kind payload slots = .ok () ↔ t.Makes kind payload slots := by
  have hadopt : t.ensureAdoptable [] (slots.flatMap Slot.ids) = .ok () ↔
      (∀ id ∈ slots.flatMap Slot.ids, t.Loose id) ∧ (slots.flatMap Slot.ids).Nodup := by
    simp [ensureAdoptable_eq_ok_iff]
  constructor
  · intro h
    obtain ⟨_, hslots, h⟩ := bind_eq_ok_iff.1 h
    have hform : payload.form = kind.payloadForm := by
      by_contra hform
      simp [hform] at h
    have hrest : (∀ v, payload = .var v → v.index < t.bindings.size) ∧
        t.ensureAdoptable [] (slots.flatMap Slot.ids) = .ok () := by
      cases payload <;> simpa [hform, bind_eq_ok_iff, ← exists_variableAt_iff] using h
    exact ⟨hslots, hform, hrest.1, (hadopt.1 hrest.2).1, (hadopt.1 hrest.2).2⟩
  · intro h
    have hids := hadopt.2 ⟨h.loose, h.nodup⟩
    have hvar := h.declared
    unfold checkNewNode
    rw [h.complete]
    cases payload <;> simp_all [h.form, bind_eq_ok_iff, ← exists_variableAt_iff]

/-! ## Updates keep the invariant -/

/-- Whether a node suits its kind does not depend on its place in the tree. -/
theorem conforms_congr {t t' : Tree} {n n' : Node} (h : n.Conforms t) (hkind : n'.kind = n.kind)
    (hforms : n'.slots.map Slot.isSequence = n.slots.map Slot.isSequence) (hpayload : n'.payload = n.payload)
    (hsize : t.bindings.size ≤ t'.bindings.size) : n'.Conforms t' where
  forms := by rw [hforms, hkind, h.forms]
  payload := by rw [hpayload, hkind, h.payload]
  declared v hv := Nat.lt_of_lt_of_le (h.declared v (hpayload ▸ hv)) hsize

section NewNode

variable {t : Tree} {kind : NodeKind} {source : SourceRef} {payload : Payload} {slots : List Slot}

/-- An old node after a new one was made: only the link of a child of the new node differs. -/
theorem get?_addNode_eq_some (hm : t.Makes kind payload slots) {id : NodeId} {n' : Node} (hid : id ≠ t.nextId)
    (h : (t.addNode kind source payload slots).get? id = some n') :
    ∃ n, t.get? id = some n ∧ ((id ∈ slots.flatMap Slot.ids ∧ n.parent = none ∧ t.root ≠ some id ∧
      n' = { n with parent := some t.nextId }) ∨ (id ∉ slots.flatMap Slot.ids ∧ n' = n)) := by
  rw [get?_addNode_of_ne kind source payload slots t hid] at h
  split at h
  · next hmem =>
    obtain ⟨⟨n, hn, hp⟩, hroot⟩ := hm.loose id hmem
    rw [hn] at h
    exact ⟨n, hn, Or.inl ⟨hmem, hp, hroot, by simpa using h.symm⟩⟩
  · next hmem => exact ⟨n', h, Or.inr ⟨hmem, rfl⟩⟩

/-- An old node is as it was, but for its parent. -/
theorem Makes.old (hm : t.Makes kind payload slots) {id : NodeId} {n' : Node} (hid : id ≠ t.nextId)
    (h : (t.addNode kind source payload slots).get? id = some n') :
    ∃ n, t.get? id = some n ∧ n'.kind = n.kind ∧ n'.payload = n.payload ∧ n'.slots = n.slots := by
  obtain ⟨n, hn, ⟨-, -, -, rfl⟩ | ⟨-, rfl⟩⟩ := get?_addNode_eq_some hm hid h
  · exact ⟨n, hn, rfl, rfl, rfl⟩
  · exact ⟨n', hn, rfl, rfl, rfl⟩

/-- A node hangs below the new one, or where it did. -/
theorem Makes.parent_cases (hm : t.Makes kind payload slots) {c p : NodeId} {n' : Node}
    (h : (t.addNode kind source payload slots).get? c = some n') (hp : n'.parent = some p) :
    c ∈ slots.flatMap Slot.ids ∧ p = t.nextId ∨ ∃ n, t.get? c = some n ∧ n.parent = some p := by
  by_cases hc : c = t.nextId
  · subst hc
    obtain rfl := Option.some.inj ((get?_addNode_nextId kind source payload slots t).symm.trans h)
    cases hp
  · obtain ⟨n, hn, ⟨hmem, -, -, rfl⟩ | ⟨-, rfl⟩⟩ := get?_addNode_eq_some hm hc h
    · exact .inl ⟨hmem, (Option.some.inj hp).symm⟩
    · exact .inr ⟨n', hn, hp⟩

theorem get?_addNode_of_get? (hm : t.Makes kind payload slots) {id : NodeId} {n : Node} (h : t.get? id = some n)
    (hmem : n.parent ≠ none ∨ t.root = some id) :
    (t.addNode kind source payload slots).get? id = some n := by
  rw [get?_addNode_of_ne kind source payload slots t (ne_nextId_of_get? h), if_neg, h]
  intro hid
  obtain ⟨⟨m, hm', hp⟩, hroot⟩ := hm.loose id hid
  rw [h, Option.some.injEq] at hm'
  subst hm'
  rcases hmem with h' | h'
  · exact h' hp
  · exact hroot h'

/-- A node may be linked to the new one, but is as it was otherwise. -/
theorem exists_get?_addNode {id : NodeId} {n : Node} (h : t.get? id = some n) :
    ∃ p, (t.addNode kind source payload slots).get? id = some { n with parent := p } := by
  rw [get?_addNode_of_ne kind source payload slots t (ne_nextId_of_get? h), h]
  split
  · exact ⟨_, rfl⟩
  · exact ⟨n.parent, rfl⟩

/-- Links that are there stay, because only nodes without one get one. -/
theorem Makes.isParent (hm : t.Makes kind payload slots) {c p : NodeId} (h : t.IsParent c p) :
    (t.addNode kind source payload slots).IsParent c p := by
  obtain ⟨n, hn, hparent⟩ := parent?_eq_some_iff.1 h
  exact parent?_eq_some_iff.2 ⟨n, get?_addNode_of_get? hm hn (.inl (by simp [hparent])), hparent⟩

/-- The children of the new node link to it. -/
theorem Makes.held (hm : t.Makes kind payload slots) {c : NodeId} (hc : c ∈ slots.flatMap Slot.ids) :
    ∃ m, (t.addNode kind source payload slots).get? c = some m ∧ m.parent = some t.nextId := by
  obtain ⟨n, hn, -⟩ := (hm.loose c hc).live
  refine ⟨{ n with parent := some t.nextId }, ?_, rfl⟩
  rw [get?_addNode_of_ne kind source payload slots t (ne_nextId_of_get? hn), if_pos hc, hn]
  rfl

/-- Making a node keeps the invariant. -/
theorem Consistent.addNode (h : t.Consistent) (hm : t.Makes kind payload slots) :
    (t.addNode kind source payload slots).Consistent where
  conforms {id n'} hn' := by
    by_cases hid : id = t.nextId
    · subst hid
      obtain rfl := Option.some.inj ((get?_addNode_nextId kind source payload slots t).symm.trans hn')
      exact ⟨checkSlots_eq_ok hm.complete, hm.form, by simpa using hm.declared⟩
    · obtain ⟨n, hn, hkind, hpayload, hslots⟩ := hm.old hid hn'
      exact conforms_congr (h.conforms hn) hkind (by rw [hslots]) hpayload (by simp)
  held {p n' c} hn' hc := by
    by_cases hp : p = t.nextId
    · subst hp
      obtain rfl := Option.some.inj ((get?_addNode_nextId kind source payload slots t).symm.trans hn')
      exact hm.held hc
    · obtain ⟨n, hn, -, -, hslots⟩ := hm.old hp hn'
      obtain ⟨m, hm', hmp⟩ := h.held hn (by simpa only [Node.children, hslots] using hc)
      exact ⟨m, get?_addNode_of_get? hm hm' (.inl (by simp [hmp])), hmp⟩
  holder {c m' p} hm' hmp := by
    rcases hm.parent_cases hm' hmp with ⟨hmem, rfl⟩ | ⟨m, hmc, hmp⟩
    · refine ⟨_, get?_addNode_nextId kind source payload slots t, ?_⟩
      have hle := List.nodup_iff_count.1 hm.nodup c
      have hpos := List.count_pos_iff.2 hmem
      exact Nat.le_antisymm hle hpos
    · obtain ⟨n, hn, hcount⟩ := h.holder hmc hmp
      exact (exists_get?_addNode hn).elim fun _ hq => ⟨_, hq, hcount⟩
  root {r} hr := by
    rw [root_addNode] at hr
    obtain ⟨n, hn, hp⟩ := h.root hr
    exact ⟨n, get?_addNode_of_get? hm hn (.inr hr), hp⟩
  acyclic := by
    refine acyclic_of_edges (S := (· ∈ slots.flatMap Slot.ids)) (p := t.nextId) h.acyclic ?_ ?_
    · intro x y hxy
      obtain ⟨n', hn', hp⟩ := parent?_eq_some_iff.1 hxy
      exact (hm.parent_cases hn' hp).symm.imp_left fun hold => parent?_eq_some_iff.2 hold
    · intro x hx hreach
      rcases Relation.ReflTransGen.cases_head hreach with rfl | ⟨y, hy, -⟩
      · exact (hm.loose _ hx).ne_nextId rfl
      · exact hy.ne_nextId rfl

end NewNode

section Relinking

/-- The children of one node have been exchanged: `parent` has new slots, `added` is now one of its children and
`removed` is none any more. -/
structure Relinked (t t' : Tree) (parent : NodeId) (slots : List Slot) (added removed : Option NodeId) : Prop where
  root : t'.root = t.root
  bindings : t'.bindings = t.bindings
  size : t'.nodes.size = t.nodes.size
  get? : ∀ id, t'.get? id = (t.get? id).map fun n =>
    { n with
      slots := if id = parent then slots else n.slots
      parent := if added = some id then some parent else if removed = some id then none else n.parent }

/-- The exchange is in order: the slots keep their forms, what is added was loose and is not above the node, and the
children are the old ones but for the two. -/
structure Exchange (t : Tree) (parent : NodeId) (n : Node) (slots : List Slot) (added removed : Option NodeId) :
    Prop where
  live : t.get? parent = some n
  forms : slots.map Slot.isSequence = n.slots.map Slot.isSequence
  loose : ∀ c, added = some c → t.Loose c ∧ ¬ Relation.ReflTransGen t.IsParent parent c
  linked : ∀ c, removed = some c → t.IsParent c parent
  count : ∀ c, (slots.flatMap Slot.ids).count c =
    if added = some c then 1 else if removed = some c then 0 else n.children.count c

variable {t t' : Tree} {parent : NodeId} {n : Node} {slots : List Slot} {added removed : Option NodeId}

theorem Relinked.get?_of_ne (hr : Relinked t t' parent slots added removed) {id : NodeId} (hp : id ≠ parent)
    (ha : added ≠ some id) (hrem : removed ≠ some id) : t'.get? id = t.get? id := by
  rw [hr.get?]
  cases t.get? id with
  | none => rfl
  | some n => simp [hp, ha, hrem]

theorem Relinked.get?_eq_some (hr : Relinked t t' parent slots added removed) {id : NodeId} {n' : Node}
    (h : t'.get? id = some n') : ∃ n, t.get? id = some n ∧ n' = { n with
      slots := if id = parent then slots else n.slots
      parent := if added = some id then some parent else if removed = some id then none else n.parent } := by
  rw [hr.get?] at h
  obtain ⟨n, hn, rfl⟩ := Option.map_eq_some_iff.1 h
  exact ⟨n, hn, rfl⟩

theorem Relinked.exists_get? (hr : Relinked t t' parent slots added removed) {id : NodeId} {m : Node}
    (hm : t.get? id = some m) :
    ∃ m', t'.get? id = some m' ∧ m'.children = (if id = parent then slots.flatMap Slot.ids else m.children) ∧
      m'.parent = if added = some id then some parent else if removed = some id then none else m.parent := by
  refine ⟨_, by rw [hr.get?, hm]; rfl, ?_, rfl⟩
  by_cases hid : id = parent <;> simp [Node.children, hid]

/-- What was added hangs below `parent`, and everything else where it did, but for what was removed. -/
theorem Relinked.parent_cases (hr : Relinked t t' parent slots added removed) {c p : NodeId} {m' : Node}
    (hm' : t'.get? c = some m') (hp : m'.parent = some p) : added = some c ∧ p = parent ∨
      added ≠ some c ∧ removed ≠ some c ∧ ∃ m, t.get? c = some m ∧ m.parent = some p := by
  obtain ⟨m, hm, rfl⟩ := hr.get?_eq_some hm'
  by_cases ha : added = some c
  · simp only [if_pos ha, Option.some.injEq] at hp
    exact .inl ⟨ha, hp.symm⟩
  · by_cases hrem : removed = some c
    · simp [ha, hrem] at hp
    · simp only [if_neg ha, if_neg hrem] at hp
      exact .inr ⟨ha, hrem, m, hm, hp⟩

namespace Exchange

variable {c p : NodeId} {m : Node} (he : Exchange t parent n slots added removed) (h : t.Consistent)
  (hr : Relinked t t' parent slots added removed)
include he h hr

/-- What is in the new slots links back to the node. -/
theorem held (hc : c ∈ slots.flatMap Slot.ids) : ∃ k, t'.get? c = some k ∧ k.parent = some parent := by
  by_cases ha : added = some c
  · obtain ⟨k, hk, -⟩ := (he.loose c ha).1.live
    obtain ⟨k', hk', -, hparent⟩ := hr.exists_get? hk
    exact ⟨k', hk', by rw [hparent, if_pos ha]⟩
  · have hcount := he.count c
    have hpos := List.count_pos_iff.2 hc
    rw [if_neg ha] at hcount
    have hrem : removed ≠ some c := fun hrem => by
      rw [if_pos hrem] at hcount
      omega
    rw [if_neg hrem] at hcount
    obtain ⟨k, hk, hkp⟩ := h.held he.live (List.count_pos_iff.1 (hcount ▸ hpos))
    obtain ⟨k', hk', -, hparent⟩ := hr.exists_get? hk
    exact ⟨k', hk', by rw [hparent, if_neg ha, if_neg hrem, hkp]⟩

/-- The children of other nodes stay with them. -/
theorem held_other (hm : t.get? p = some m) (hp : p ≠ parent) (hc : c ∈ m.children) :
    ∃ k, t'.get? c = some k ∧ k.parent = some p := by
  have hcp : t.IsParent c p := (h.isParent_iff hm).2 hc
  have ha : added ≠ some c := fun ha => (he.loose c ha).1.not_isParent hcp
  have hrem : removed ≠ some c := fun hrem => hp (Option.some.inj (hcp.symm.trans (he.linked c hrem)))
  obtain ⟨k, hk, hkp⟩ := h.held hm hc
  obtain ⟨k', hk', -, hparent⟩ := hr.exists_get? hk
  exact ⟨k', hk', by rw [hparent, if_neg ha, if_neg hrem, hkp]⟩

/-- Where a node hangs, it is held once. -/
theorem holder (hm : t'.get? c = some m) (hp : m.parent = some p) :
    ∃ k, t'.get? p = some k ∧ k.children.count c = 1 := by
  rcases hr.parent_cases hm hp with ⟨ha, rfl⟩ | ⟨ha, hrem, m₀, hm₀, hmp⟩
  · obtain ⟨k, hk, hchildren, -⟩ := hr.exists_get? he.live
    exact ⟨k, hk, by rw [hchildren, if_pos rfl, he.count, if_pos ha]⟩
  · obtain ⟨k, hk, hcount⟩ := h.holder hm₀ hmp
    obtain ⟨k', hk', hchildren, -⟩ := hr.exists_get? hk
    refine ⟨k', hk', ?_⟩
    rw [hchildren]
    split
    · next hpp =>
      obtain rfl : n = k := Option.some.inj (he.live.symm.trans (hpp ▸ hk))
      rw [he.count, if_neg ha, if_neg hrem, hcount]
    · exact hcount

end Exchange

/-- Exchanging children keeps the invariant. -/
theorem Consistent.relinked (h : t.Consistent) (hr : Relinked t t' parent slots added removed)
    (he : Exchange t parent n slots added removed) : t'.Consistent where
  conforms {id m'} hm' := by
    obtain ⟨m, hm, rfl⟩ := hr.get?_eq_some hm'
    refine conforms_congr (h.conforms hm) rfl ?_ rfl (Nat.le_of_eq (by rw [hr.bindings]))
    by_cases hid : id = parent
    · subst hid
      obtain rfl := Option.some.inj (he.live.symm.trans hm)
      simpa using he.forms
    · simp [hid]
  held {p m' c} hm' hc := by
    obtain ⟨m, hm, rfl⟩ := hr.get?_eq_some hm'
    by_cases hp : p = parent
    · subst hp
      exact he.held h hr (by simpa [Node.children] using hc)
    · exact he.held_other h hr hm hp (by simpa [Node.children, hp] using hc)
  holder hm' hmp := he.holder h hr hm' hmp
  root {r} hroot := by
    rw [hr.root] at hroot
    obtain ⟨k, hk, hkp⟩ := h.root hroot
    obtain ⟨k', hk', -, hparent⟩ := hr.exists_get? hk
    have ha : added ≠ some r := fun ha => (he.loose r ha).1.not_root hroot
    exact ⟨k', hk', by rw [hparent, if_neg ha, hkp, ite_self]⟩
  acyclic := by
    refine acyclic_of_edges (S := fun x => added = some x) (p := parent) h.acyclic ?_ fun x hx => (he.loose x hx).2
    intro x y hxy
    obtain ⟨m', hm', hp⟩ := parent?_eq_some_iff.1 hxy
    rcases hr.parent_cases hm' hp with hadded | ⟨-, -, m, hm, hmp⟩
    · exact .inr hadded
    · exact .inl (parent?_eq_some_iff.2 ⟨m, hm, hmp⟩)

end Relinking

/-! ## The remaining updates -/

section Other

variable {t t' : Tree}

/-- A tree with the same nodes and root and at least as many variables. -/
theorem Consistent.of_get?_eq (h : t.Consistent) (hget : ∀ id, t'.get? id = t.get? id)
    (hroot : ∀ r, t'.root = some r → ∃ n, t.get? r = some n ∧ n.parent = none)
    (hsize : t.bindings.size ≤ t'.bindings.size) : t'.Consistent where
  conforms hn := conforms_congr (h.conforms (hget _ ▸ hn)) rfl rfl rfl hsize
  held hn hc := by simpa only [hget] using h.held (hget _ ▸ hn) hc
  holder hm hp := by simpa only [hget] using h.holder (hget _ ▸ hm) hp
  root hr := by simpa only [hget] using hroot _ hr
  acyclic := by
    have : t'.IsParent = t.IsParent := by
      funext x y
      simp only [IsParent, parent?, hget]
    rw [this]
    exact h.acyclic

/-- What is known about a node is no matter of the invariant. -/
theorem Consistent.override (h : t.Consistent) (id : NodeId) (c : Capabilities) :
    (t.modifyNode id fun n => { n with override := some c }).Consistent := by
  have look (x : NodeId) : (t.modifyNode id fun n => { n with override := some c }).get? x =
      (t.get? x).map fun n => if x = id then { n with override := some c } else n := by
    rw [get?_modifyNode]
    split <;> simp
  have back {x : NodeId} {n' : Node}
      (hn : (t.modifyNode id fun n => { n with override := some c }).get? x = some n') :
      ∃ n, t.get? x = some n ∧ n'.kind = n.kind ∧ n'.slots = n.slots ∧ n'.payload = n.payload ∧ n'.parent = n.parent := by
    rw [look] at hn
    obtain ⟨n, hx, rfl⟩ := Option.map_eq_some_iff.1 hn
    exact ⟨n, hx, by split <;> simp⟩
  have forth {x : NodeId} {n : Node} (hn : t.get? x = some n) :
      ∃ n', (t.modifyNode id fun n => { n with override := some c }).get? x = some n' ∧
        n'.slots = n.slots ∧ n'.parent = n.parent := by
    rw [look, hn]
    exact ⟨_, rfl, by split <;> simp⟩
  have hparent : (t.modifyNode id fun n => { n with override := some c }).IsParent = t.IsParent := by
    funext x y
    simp only [IsParent, parent?, look]
    cases t.get? x with
    | none => rfl
    | some n => by_cases hx : x = id <;> simp [hx]
  constructor
  · intro x n' hn
    obtain ⟨n, hn, hkind, hslots, hpayload, -⟩ := back hn
    exact conforms_congr (h.conforms hn) hkind (by rw [hslots]) hpayload (Nat.le_refl _)
  · intro p n' x hn hx
    obtain ⟨n, hn, -, hslots, -, -⟩ := back hn
    obtain ⟨m, hm, hmp⟩ := h.held hn (by simpa only [Node.children, hslots] using hx)
    obtain ⟨m', hm', -, hp'⟩ := forth hm
    exact ⟨m', hm', by rw [hp', hmp]⟩
  · intro x m' p hm hp
    obtain ⟨m, hm, -, -, -, hp'⟩ := back hm
    obtain ⟨n, hn, hcount⟩ := h.holder hm (hp' ▸ hp)
    obtain ⟨n', hn', hslots, -⟩ := forth hn
    exact ⟨n', hn', by simpa only [Node.children, hslots] using hcount⟩
  · intro r hr
    obtain ⟨n, hn, hp⟩ := h.root hr
    obtain ⟨n', hn', -, hp'⟩ := forth hn
    exact ⟨n', hn', by rw [hp', hp]⟩
  · rw [hparent]
    exact h.acyclic

/-- Removing whole trees, the one with the root apart, keeps the invariant. -/
theorem Consistent.erase (h : t.Consistent) {ids : List NodeId}
    (whole : ∀ c p, t.IsParent c p → (c ∈ ids ↔ p ∈ ids)) (hroot : ∀ r, t.root = some r → r ∉ ids) :
    (t.erase ids).Consistent where
  conforms hn := conforms_congr (h.conforms (get?_of_get?_erase hn)) rfl rfl rfl (Nat.le_refl _)
  held {p n c} hn hc := by
    obtain ⟨m, hm, hmp⟩ := h.held (get?_of_get?_erase hn) hc
    have hnot : c ∉ ids := mt (whole c p (parent?_eq_some_iff.2 ⟨m, hm, hmp⟩)).1 (notMem_of_get?_erase hn)
    exact ⟨m, (get?_erase_of_notMem hnot).trans hm, hmp⟩
  holder {c m p} hm hmp := by
    have hm₀ := get?_of_get?_erase hm
    obtain ⟨n, hn, hcount⟩ := h.holder hm₀ hmp
    have hnot : p ∉ ids := mt (whole c p (parent?_eq_some_iff.2 ⟨m, hm₀, hmp⟩)).2 (notMem_of_get?_erase hm)
    exact ⟨n, (get?_erase_of_notMem hnot).trans hn, hcount⟩
  root {r} hr := by
    obtain ⟨n, hn, hp⟩ := h.root hr
    exact ⟨n, (get?_erase_of_notMem (hroot r hr)).trans hn, hp⟩
  acyclic x hx := by
    have hle : (t.erase ids).IsParent ≤ t.IsParent := by
      intro a b hab
      obtain ⟨m, hm, hmp⟩ := parent?_eq_some_iff.1 hab
      exact parent?_eq_some_iff.2 ⟨m, get?_of_get?_erase hm, hmp⟩
    exact h.acyclic x (Relation.TransGen.mono hle x x hx)

end Other

end Tree

end Specializer
