import Specializer.Proofs.Tree.Inversion
import Specializer.Proofs.Tree.Subtree

/-!
# Moving arguments

A replacement takes nodes out of the place it is going to fill, one after the other, and puts them below new nodes.
`Gathered` says what is left in the meantime: whatever has been taken out and not torn down is unchanged below, new
nodes hold new nodes or what was taken out, and the rest is where it was. Taking out, making a node and tearing down
keep it (`Gathered.detach`, `Gathered.newNode`, `Gathered.finalize`).

What a node carries of the moved nodes, and in which order, is read off a walk (`Carries`). As long as nodes are taken
out in order and new nodes are made over what is at hand, what is at hand carries the moved nodes up to the pending ones,
in order (`Holding.take`, `Holding.make`). A new node that takes the place keeps what it carries (`Gathered.installed`).
-/

namespace Specializer.Tree

variable {t₀ t t' : Tree} {hole id new parent x a : NodeId} {args pending pending' ids l l' : List NodeId} {n : Node}

/-! ## What a walk comes by -/

/-- The nodes of a list that a walk from a node comes by, in the order of the walk. -/
def Carries (t : Tree) (args : List NodeId) (id : NodeId) (l : List NodeId) : Prop :=
  ∃ ids, t.walk id = .ok ids ∧ ids.filter (· ∈ args) = l

/-- The same for several nodes, one after the other. -/
inductive CarriesAll (t : Tree) (args : List NodeId) : List NodeId → List NodeId → Prop where
  | nil : CarriesAll t args [] []
  | cons {id : NodeId} {ids l l' : List NodeId} (head : t.Carries args id l) (tail : CarriesAll t args ids l') :
    CarriesAll t args (id :: ids) (l ++ l')

theorem Carries.live (h : t.Carries args id l) : ∃ n, t.get? id = some n := by
  obtain ⟨ids, hwalk, -⟩ := h
  obtain ⟨n, hn, -⟩ := bind_eq_ok_iff.1 hwalk
  exact ⟨n, node_eq_ok_iff.1 hn⟩

theorem Carries.below (hc : t.Consistent) (h : t.Carries args id l) (ha : a ∈ l) : a ∈ args ∧ t.Below a id := by
  obtain ⟨ids, hwalk, rfl⟩ := h
  obtain ⟨hmem, hargs⟩ := List.mem_filter.1 ha
  exact ⟨by simpa using hargs, (hc.mem_walk_iff hwalk).1 hmem⟩

theorem CarriesAll.append (h : t.CarriesAll args ids l) {ids' : List NodeId} (h' : t.CarriesAll args ids' l') :
    t.CarriesAll args (ids ++ ids') (l ++ l') := by
  induction h with
  | nil => exact h'
  | cons head _ ih => exact List.append_assoc .. ▸ .cons head ih

theorem CarriesAll.split {ids' : List NodeId} (h : t.CarriesAll args (ids ++ ids') l) :
    ∃ l₁ l₂, t.CarriesAll args ids l₁ ∧ t.CarriesAll args ids' l₂ ∧ l₁ ++ l₂ = l := by
  induction ids generalizing l with
  | nil => exact ⟨[], l, .nil, h, rfl⟩
  | cons id ids ih =>
    obtain _ | ⟨head, tail⟩ := h
    obtain ⟨l₁, l₂, h₁, h₂, rfl⟩ := ih tail
    exact ⟨_, l₂, .cons head h₁, h₂, List.append_assoc ..⟩

theorem CarriesAll.single_iff : t.CarriesAll args [id] l ↔ t.Carries args id l := by
  constructor
  · rintro (_ | ⟨head, _ | _⟩)
    rwa [List.append_nil]
  · exact fun h => by simpa using CarriesAll.cons h .nil

/-- A node that is not moved carries what its children carry. -/
theorem Consistent.carries_node (hc : t.Consistent) (hid : t.get? id = some n) (hnot : id ∉ args)
    (h : t.CarriesAll args n.children l) : t.Carries args id l := by
  have key : ∀ {ids l : List NodeId}, t.CarriesAll args ids l →
      ∃ walks, ids.mapM t.walk = .ok walks ∧ walks.flatten.filter (· ∈ args) = l := by
    intro ids l h
    induction h with
    | nil => exact ⟨[], rfl, rfl⟩
    | cons head _ ih =>
      obtain ⟨walk, hwalk, rfl⟩ := head
      obtain ⟨walks, hwalks, rfl⟩ := ih
      exact ⟨walk :: walks, by rw [List.mapM_cons, hwalk, ok_bind, hwalks]; rfl, by simp⟩
  obtain ⟨walks, hwalks, rfl⟩ := key h
  refine ⟨id :: walks.flatten, ?_, by simp [hnot]⟩
  rw [hc.walk_eq hid, hwalks]
  rfl

/-! ## The state in between -/

/-- Nodes that can be taken out of what is below `hole`, one by one. -/
structure Arguments (t : Tree) (hole : NodeId) (args : List NodeId) : Prop where
  live : ∃ n, t.get? hole = some n
  nodup : args.Nodup
  below : ∀ a ∈ args, t.StrictlyBelow a hole
  apart : ∀ a ∈ args, ∀ b ∈ args, t.Below a b → a = b

/-- Some of the nodes were taken out, the pending ones not yet. -/
structure Gathered (t₀ : Tree) (hole : NodeId) (args pending : List NodeId) (t : Tree) : Prop where
  origin : t₀.Consistent
  arguments : t₀.Arguments hole args
  consistent : t.Consistent
  size : t₀.nodes.size ≤ t.nodes.size
  waiting : pending.Sublist args
  /-- What is not torn down is unchanged. -/
  intact : ∀ {a n}, a ∈ args → t.get? a = some n → t₀.SameBelow t a
  /-- A new node holds new nodes and what was taken out. -/
  fresh : ∀ {x n}, t₀.nodes.size ≤ x.index → t.get? x = some n → ∀ c ∈ n.children, t₀.nodes.size ≤ c.index ∨ c ∈ args
  place : ∀ x ∈ hole :: pending, t.parent? x = t₀.parent? x

/-- Nothing was torn down, and new nodes are as they were but for their links. -/
structure Later (t₀ t t' : Tree) : Prop where
  size : t.nodes.size ≤ t'.nodes.size
  live : ∀ x, x.index < t.nodes.size → ((∃ n, t'.get? x = some n) ↔ ∃ n, t.get? x = some n)
  fresh : ∀ {x n}, t₀.nodes.size ≤ x.index → t.get? x = some n → ∃ p, t'.get? x = some { n with parent := p }

theorem Later.stale (h : Later t₀ t t') (hx : x.index < t.nodes.size) (hnone : t.get? x = none) : t'.get? x = none := by
  cases hn : t'.get? x with
  | none => rfl
  | some n =>
    obtain ⟨m, hm⟩ := (h.live x hx).1 ⟨n, hn⟩
    rw [hnone] at hm
    cases hm

theorem Arguments.holder (h : t.Arguments hole args) (ha : a ∈ args) : ∃ q, t.IsParent a q ∧ t.Below q hole := by
  obtain ⟨q, hq, hb⟩ := Relation.TransGen.head'_iff.1 (h.below a ha)
  exact ⟨q, hq, hb⟩

theorem Arguments.index_lt (h : t.Arguments hole args) (ha : a ∈ args) : a.index < t.nodes.size := by
  obtain ⟨q, hq, -⟩ := h.holder ha
  obtain ⟨n, hn, -⟩ := parent?_eq_some_iff.1 hq
  exact lt_size_of_get? hn

theorem Arguments.below_lt (h : t.Arguments hole args) (ha : a ∈ args) (hx : t.Below x a) : x.index < t.nodes.size := by
  rcases Relation.ReflTransGen.cases_head hx with rfl | ⟨q, hq, -⟩
  · exact h.index_lt ha
  · obtain ⟨n, hn, -⟩ := parent?_eq_some_iff.1 hq
    exact lt_size_of_get? hn

theorem Arguments.hole_lt (h : t.Arguments hole args) : hole.index < t.nodes.size := by
  obtain ⟨n, hn⟩ := h.live
  exact lt_size_of_get? hn

theorem Arguments.gathered (h : t.Arguments hole args) (hc : t.Consistent) : Gathered t hole args args t where
  origin := hc
  arguments := h
  consistent := hc
  size := Nat.le_refl _
  waiting := .refl _
  intact _ hn := sameBelow_refl hn
  fresh hx hn := absurd (lt_size_of_get? hn) (Nat.not_lt.2 hx)
  place _ _ := rfl

namespace Gathered

theorem hole_notMem (h : Gathered t₀ hole args pending t) : hole ∉ args :=
  fun hmem => h.origin.acyclic hole (h.arguments.below hole hmem)

theorem not_loose (h : Gathered t₀ hole args pending t) (ha : a ∈ pending) : ¬ t.Loose a := by
  rintro ⟨⟨n, hn, hnone⟩, -⟩
  obtain ⟨q, hq, -⟩ := h.arguments.holder (h.waiting.subset ha)
  have hplace := h.place a (by simp [ha])
  rw [parent?_of_get? hn, hnone, show t₀.parent? a = some q from hq] at hplace
  cases hplace

/-- What hangs below a moved node hung below it from the beginning. -/
theorem below_iff (h : Gathered t₀ hole args pending t) (ha : a ∈ args) (hn : t.get? a = some n) :
    t.Below x a ↔ t₀.Below x a :=
  (h.intact ha hn).below_iff h.origin h.consistent

/-- What hangs below a new node is new, or hangs below a moved node. -/
theorem below_known (h : Gathered t₀ hole args pending t) (hid : t₀.nodes.size ≤ id.index ∨ id ∈ args)
    (hn : t.get? id = some n) (hx : t.Below x id) :
    t₀.nodes.size ≤ x.index ∨ ∃ a ∈ args, (∃ n, t.get? a = some n) ∧ t.Below x a := by
  induction hx using Relation.ReflTransGen.head_induction_on with
  | refl => exact hid.imp_right fun hid => ⟨id, hid, ⟨n, hn⟩, .refl⟩
  | @head c q hcq _ ih =>
    rcases ih with hq | ⟨a, ha, hlive, hqa⟩
    · obtain ⟨n, hn, hmem⟩ := h.consistent.parent_live hcq
      refine (h.fresh hq hn c hmem).imp_right fun hc => ⟨c, hc, ?_, .refl⟩
      exact (parent?_eq_some_iff.1 hcq).imp fun _ => And.left
    · exact .inr ⟨a, ha, hlive, .head hcq hqa⟩

/-- A moved node carries itself. -/
theorem carries_argument (h : Gathered t₀ hole args pending t) (ha : a ∈ args) (hn : t.get? a = some n) :
    t.Carries args a [a] := by
  obtain ⟨below, -, hwalk, hbelow⟩ := h.consistent.walk_cons hn
  refine ⟨_, hwalk, ?_⟩
  have hnone : below.flatten.filter (· ∈ args) = [] := by
    refine List.filter_eq_nil_iff.2 fun x hx hxargs => ?_
    have hxa := hbelow x hx
    have heq : x = a := h.arguments.apart x (by simpa using hxargs) a ha
      ((h.below_iff ha hn).1 hxa.to_reflTransGen)
    exact h.consistent.acyclic a (heq ▸ hxa)
  simp [ha, hnone]

/-- What a node carries stays with it. -/
theorem carries_later (h : Gathered t₀ hole args pending t) (h' : Gathered t₀ hole args pending' t')
    (hlater : Later t₀ t t') (hid : t₀.nodes.size ≤ id.index ∨ id ∈ args) (hcarries : t.Carries args id l) :
    t'.Carries args id l := by
  obtain ⟨n, hn⟩ := hcarries.live
  obtain ⟨ids, hwalk, hfilter⟩ := hcarries
  refine ⟨ids, ?_, hfilter⟩
  rw [← hwalk]
  refine walk_congr h.consistent hlater.size (fun x m hx hm => ?_) hn
  rcases h.below_known hid hn hx with hfresh | ⟨a, ha, ⟨na, hna⟩, hxa⟩
  · obtain ⟨p, hm'⟩ := hlater.fresh hfresh hm
    exact ⟨_, hm', rfl⟩
  · -- below a moved node both trees are as the first one was
    obtain ⟨na', hna'⟩ := (hlater.live a (lt_size_of_get? hna)).2 ⟨na, hna⟩
    have hxa₀ := (h.below_iff ha hna).1 hxa
    obtain ⟨m₀, hm₀⟩ := live_below hxa₀ ((h.intact ha hna).node.imp fun m ⟨_, hm, _⟩ => hm)
    obtain ⟨p, hp⟩ := (h.intact ha hna).get? hxa₀ hm₀
    obtain ⟨p', hp'⟩ := (h'.intact ha hna').get? hxa₀ hm₀
    obtain rfl := Option.some.inj (hm.symm.trans hp)
    exact ⟨_, hp', rfl⟩

theorem carriesAll_later (h : Gathered t₀ hole args pending t) (h' : Gathered t₀ hole args pending' t')
    (hlater : Later t₀ t t') (hids : ∀ c ∈ ids, t₀.nodes.size ≤ c.index ∨ c ∈ args)
    (hcarries : t.CarriesAll args ids l) : t'.CarriesAll args ids l := by
  induction hcarries with
  | nil => exact .nil
  | cons head _ ih =>
    exact .cons (h.carries_later h' hlater (hids _ (by simp)) head) (ih fun c hc => hids c (by simp [hc]))

/-! ## Steps -/

section Detach

variable {q b : NodeId} {slots : List Slot} (h : Gathered t₀ hole args (a :: pending) t) (hq : t₀.IsParent a q)
include h hq

/-- The parent of the next node hangs below no moved node. -/
theorem not_below_moved (hb : b ∈ args) : ¬ t₀.Below q b := by
  intro hqb
  have ha : a ∈ args := h.waiting.subset List.mem_cons_self
  obtain rfl := h.arguments.apart a ha b hb (.head hq hqb)
  exact h.origin.acyclic a (.head' hq hqb)

variable (hr : Relinked t t' q slots none (some a))
include hr

theorem fresh_detached (hx : t₀.nodes.size ≤ x.index) : t'.get? x = t.get? x := by
  refine hr.get?_of_ne ?_ nofun ?_
  · rintro rfl
    obtain ⟨m, hm, -⟩ := h.origin.parent_live hq
    exact absurd (lt_size_of_get? hm) (Nat.not_lt.2 hx)
  · rintro ⟨⟩
    exact absurd (h.arguments.index_lt (h.waiting.subset List.mem_cons_self)) (Nat.not_lt.2 hx)

theorem intact_detached (hb : b ∈ args) (hn : t'.get? b = some n) : t₀.SameBelow t' b := by
  have ha : a ∈ args := h.waiting.subset List.mem_cons_self
  have hbq : b ≠ q := fun e => h.not_below_moved hq hb (e ▸ .refl)
  obtain ⟨m, hm, -⟩ := hr.get?_eq_some hn
  refine (h.intact hb hm).later (fun k hk => ?_) fun x hx => hr.get?_of_ne ?_ nofun ?_
  · rw [hr.get?, hk]
    simp [hbq]
  · rintro rfl
    exact h.not_below_moved hq hb hx.to_reflTransGen
  · rintro ⟨⟩
    obtain rfl := h.arguments.apart a ha b hb hx.to_reflTransGen
    exact h.origin.acyclic a hx

theorem place_detached (hx : x ∈ hole :: pending) : t'.parent? x = t₀.parent? x := by
  have ha : a ∈ args := h.waiting.subset List.mem_cons_self
  have hxa : x ≠ a := by
    rcases List.mem_cons.1 hx with rfl | hx
    · rintro rfl
      exact h.hole_notMem ha
    · rintro rfl
      exact (List.nodup_cons.1 (h.arguments.nodup.sublist h.waiting)).1 hx
  rw [hr.parent?_of_ne hxa]
  exact h.place x (List.mem_cons.2 ((List.mem_cons.1 hx).imp_right (List.mem_cons_of_mem _)))

end Detach

/-- Taking the next node out. -/
theorem detach (h : Gathered t₀ hole args (a :: pending) t) (hrun : TreeM.detach a t = .ok id t') :
    id = a ∧ Gathered t₀ hole args pending t' ∧ Later t₀ t t' ∧ t'.nodes.size = t.nodes.size ∧
      ∃ n, t'.get? a = some n := by
  have ha : a ∈ args := h.waiting.subset List.mem_cons_self
  obtain ⟨q, hq, -⟩ := h.arguments.holder ha
  have hqa : t.IsParent a q := (h.place a (by simp)).trans hq
  obtain ⟨n, hn, -⟩ := h.consistent.parent_live hqa
  obtain ⟨rfl, hr, hc⟩ := h.consistent.detach_eq_ok hn hqa hrun
  have hlive {x : NodeId} : (∃ n, t'.get? x = some n) ↔ ∃ n, t.get? x = some n := by
    rw [hr.get?]
    cases t.get? x <;> simp
  refine ⟨rfl, ?_, ?_, hr.size, hlive.2 ((parent?_eq_some_iff.1 hqa).imp fun _ => And.left)⟩
  · exact {
      origin := h.origin
      arguments := h.arguments
      consistent := hc
      size := hr.size ▸ h.size
      waiting := (List.sublist_cons_self ..).trans h.waiting
      intact := h.intact_detached hq hr
      fresh := fun hx hm => h.fresh hx ((h.fresh_detached hq hr hx).symm.trans hm)
      place := fun _ => h.place_detached hq hr }
  · exact ⟨Nat.le_of_eq hr.size.symm, fun x _ => hlive,
      fun {x m} hx hm => ⟨m.parent, (h.fresh_detached hq hr hx).trans hm⟩⟩

section NewNode

variable {kind : NodeKind} {source : SourceRef} {payload : Payload} {slots : List Slot} {b : NodeId}
  (h : Gathered t₀ hole args pending t) (hm : t.Makes kind payload slots)
include h hm

theorem intact_made (hb : b ∈ args) (hn : (t.addNode kind source payload slots).get? b = some n) :
    t₀.SameBelow (t.addNode kind source payload slots) b := by
  have hne : b ≠ t.nextId := by
    rintro rfl
    exact absurd (h.arguments.index_lt hb) (Nat.not_lt.2 h.size)
  obtain ⟨m, hmb, -⟩ := get?_addNode_eq_some hm hne hn
  refine (h.intact hb hmb).later (fun _ => exists_get?_addNode) fun x hx => ?_
  -- what hangs below a moved node has a parent and is not adopted
  obtain ⟨q, hq, -⟩ := Relation.TransGen.head'_iff.1 hx
  obtain ⟨k, hk, hkq⟩ := parent?_eq_some_iff.1 hq
  have hk' : t.get? x = some k := ((h.intact hb hmb).below x hx).trans hk
  rw [hk']
  exact get?_addNode_of_get? hm hk' (.inl (by simp [hkq]))

variable (hids : ∀ c ∈ slots.flatMap Slot.ids, t₀.nodes.size ≤ c.index ∨ c ∈ args)
include hids

theorem fresh_made (hx : t₀.nodes.size ≤ x.index) (hn : (t.addNode kind source payload slots).get? x = some n) :
    ∀ c ∈ n.children, t₀.nodes.size ≤ c.index ∨ c ∈ args := by
  by_cases hxnew : x = t.nextId
  · subst hxnew
    obtain rfl := Option.some.inj ((get?_addNode_nextId kind source payload slots t).symm.trans hn)
    exact hids
  · obtain ⟨m, hmx, -, -, hslots⟩ := hm.old hxnew hn
    simpa only [Node.children, hslots] using h.fresh hx hmx

theorem place_made (hx : x ∈ hole :: pending) : (t.addNode kind source payload slots).parent? x = t₀.parent? x := by
  have hlt : x.index < t₀.nodes.size := by
    rcases List.mem_cons.1 hx with rfl | hx
    · exact h.arguments.hole_lt
    · exact h.arguments.index_lt (h.waiting.subset hx)
  have hne : x ≠ t.nextId := by
    rintro rfl
    exact absurd hlt (Nat.not_lt.2 h.size)
  have hnot : x ∉ slots.flatMap Slot.ids := by
    intro hmem
    rcases List.mem_cons.1 hx with rfl | hx
    · exact (hids x hmem).elim (Nat.not_le.2 hlt) h.hole_notMem
    · exact h.not_loose hx (hm.loose x hmem)
  rw [parent?, get?_addNode_of_ne _ _ _ _ t hne, if_neg hnot, ← parent?, h.place x hx]

end NewNode

/-- Making a node over new nodes and nodes that were taken out. -/
theorem newNode {kind : NodeKind} {source : SourceRef} {payload : Payload} {slots : List Slot}
    (h : Gathered t₀ hole args pending t) (hrun : TreeM.newNode kind source payload slots t = .ok id t')
    (hids : ∀ c ∈ slots.flatMap Slot.ids, t₀.nodes.size ≤ c.index ∨ c ∈ args) :
    Gathered t₀ hole args pending t' ∧ Later t₀ t t' ∧ t₀.nodes.size ≤ id.index ∧
      t'.get? id = some { kind, source, payload, slots } := by
  obtain ⟨hm, rfl, rfl⟩ := newNode_eq_ok hrun
  refine ⟨?_, ⟨by simp, fun x hx => ?_, fun _ => exists_get?_addNode⟩, h.size,
    get?_addNode_nextId kind source payload slots t⟩
  · exact {
      origin := h.origin
      arguments := h.arguments
      consistent := h.consistent.addNode hm
      size := by
        rw [size_addNode]
        exact Nat.le_succ_of_le h.size
      waiting := h.waiting
      intact := h.intact_made hm
      fresh := h.fresh_made hm hids
      place := fun _ => h.place_made hm hids }
  · have hne : x ≠ t.nextId := by
      rintro rfl
      exact Nat.lt_irrefl _ hx
    constructor
    · rintro ⟨n, hn⟩
      obtain ⟨m, hmx, -⟩ := get?_addNode_eq_some hm hne hn
      exact ⟨m, hmx⟩
    · rintro ⟨m, hmx⟩
      exact (exists_get?_addNode hmx).imp' _ fun _ => id

/-- Tearing a node down that was taken out. -/
theorem finalize (h : Gathered t₀ hole args pending t) (ha : a ∈ args) (hrun : TreeM.finalize a t = .ok () t') :
    Gathered t₀ hole args pending t' ∧ t'.nodes.size = t.nodes.size ∧ (∀ x, t₀.Below x a → t'.get? x = none) ∧
      ∀ x, t.get? x = none → t'.get? x = none := by
  obtain ⟨hloose, hc, ids, hmem, rfl⟩ := h.consistent.finalize_eq_ok hrun
  obtain ⟨⟨na, hna, -⟩, -⟩ := id hloose
  have hbelow {x : NodeId} : x ∈ ids ↔ t₀.Below x a := (hmem x).trans (h.below_iff ha hna)
  have hother {b : NodeId} (hb : b ∈ args) (hne : b ≠ a) : b ∉ ids :=
    fun hids => hne (h.arguments.apart b hb a ha (hbelow.1 hids))
  have hget {x : NodeId} (hx : x ∉ ids) : (t.erase ids).get? x = t.get? x := get?_erase_of_notMem hx
  have hgone {x : NodeId} (hx : t₀.Below x a) : (t.erase ids).get? x = none := by
    rw [get?_erase, if_pos (hbelow.2 hx)]
  have hstale {x : NodeId} (hx : t.get? x = none) : (t.erase ids).get? x = none := by
    rw [get?_erase, hx, ite_self]
  refine ⟨?_, size_erase .., fun x => hgone, fun x => hstale⟩
  refine ⟨h.origin, h.arguments, hc, by rw [size_erase]; exact h.size, h.waiting, fun {b m} hb hm => ?_,
    fun {x m} hx hm => ?_, fun x hx => ?_⟩
  · have hba : b ≠ a := by
      rintro rfl
      rw [hgone .refl] at hm
      cases hm
    rw [hget (hother hb hba)] at hm
    refine (h.intact hb hm).later (fun k hk => ⟨k.parent, (hget (hother hb hba)).trans hk⟩) fun x hx => hget fun hids => ?_
    rcases below_total hx.to_reflTransGen (hbelow.1 hids) with hab | hab
    · exact hba (h.arguments.apart b hb a ha hab)
    · exact hba (h.arguments.apart a ha b hb hab).symm
  · exact h.fresh hx (get?_of_get?_erase hm)
  · have hx' : x ∉ ids := fun hids => by
      rcases List.mem_cons.1 hx with rfl | hx
      · exact h.origin.acyclic x (.trans_right (hbelow.1 hids) (h.arguments.below a ha))
      · obtain rfl := h.arguments.apart x (h.waiting.subset hx) a ha (hbelow.1 hids)
        exact h.not_loose hx hloose
    rw [parent?, hget hx', ← parent?, h.place x hx]

end Gathered

/-! ## Nodes at hand -/

/-- The nodes at hand, new ones and those that were taken out, carry the moved nodes in order up to the pending ones. -/
structure Holding (t₀ : Tree) (hole : NodeId) (args pending hand : List NodeId) (t : Tree) : Prop
    extends Gathered t₀ hole args pending t where
  known : ∀ c ∈ hand, t₀.nodes.size ≤ c.index ∨ c ∈ args
  carries : ∃ carried, t.CarriesAll args hand carried ∧ carried ++ pending = args

theorem Arguments.holding (h : t.Arguments hole args) (hc : t.Consistent) (hpending : pending = args) :
    Holding t hole args pending [] t :=
  ⟨hpending ▸ h.gathered hc, by simp, [], .nil, hpending⟩

namespace Holding

variable {hand : List NodeId}

/-- Taking the next node out puts it behind the others. -/
theorem take (h : Holding t₀ hole args (a :: pending) hand t) (hrun : TreeM.detach a t = .ok id t') :
    id = a ∧ Holding t₀ hole args pending (hand ++ [a]) t' := by
  obtain ⟨rfl, hg, hlater, -, n, hn⟩ := h.detach hrun
  have ha : id ∈ args := h.waiting.subset (by simp)
  obtain ⟨carried, hcarried, hargs⟩ := h.carries
  refine ⟨rfl, hg, fun c hc => ?_, carried ++ [id], ?_, by simpa using hargs⟩
  · rcases List.mem_append.1 hc with hc | hc
    · exact h.known c hc
    · exact .inr (List.mem_singleton.1 hc ▸ ha)
  · exact (h.carriesAll_later hg hlater h.known hcarried).append (.single_iff.2 (hg.carries_argument ha hn))

/-- A new node over neighbours stands for them. -/
theorem make {kind : NodeKind} {source : SourceRef} {payload : Payload} {slots : List Slot} (front back : List NodeId)
    (h : Holding t₀ hole args pending (front ++ (slots.flatMap Slot.ids ++ back)) t)
    (hrun : TreeM.newNode kind source payload slots t = .ok id t') :
    Holding t₀ hole args pending (front ++ id :: back) t' ∧ t₀.nodes.size ≤ id.index ∧
      t'.get? id = some { kind, source, payload, slots } := by
  obtain ⟨hg, hlater, hfresh, hid⟩ := h.newNode hrun fun c hc => h.known c (by simp [hc])
  obtain ⟨carried, hcarried, hargs⟩ := h.carries
  obtain ⟨l₁, l, h₁, hrest, rfl⟩ := (h.carriesAll_later hg hlater h.known hcarried).split
  obtain ⟨l₂, l₃, h₂, h₃, rfl⟩ := hrest.split
  have hnot : id ∉ args := fun hmem => absurd (h.arguments.index_lt hmem) (Nat.not_lt.2 hfresh)
  refine ⟨⟨hg, fun c hc => ?_, _, h₁.append (.cons (hg.consistent.carries_node hid hnot h₂) h₃), hargs⟩, hfresh, hid⟩
  rcases List.mem_append.1 hc with hc | hc
  · exact h.known c (by simp [hc])
  rcases List.mem_cons.1 hc with rfl | hc
  · exact .inl hfresh
  · exact h.known c (by simp [hc])

/-- In the end one node carries everything. -/
theorem carries_all (h : Holding t₀ hole args [] [new] t) : t.Carries args new args := by
  obtain ⟨carried, hcarried, hargs⟩ := h.carries
  obtain rfl : carried = args := by simpa using hargs
  exact CarriesAll.single_iff.1 hcarried

end Holding

/-! ## Taking the place -/

/-- A new node has taken the place of `hole`, and what hangs below it came along. -/
structure Installed (t₀ t t' : Tree) (hole new : NodeId) : Prop where
  size : t.nodes.size ≤ t'.nodes.size
  place : t'.parent? new = t₀.parent? hole
  node : ∀ {x n}, t.Below x new → t.get? x = some n → ∃ p, t'.get? x = some { n with parent := p }
  below : ∀ {x}, t.Below x new → x ≠ new → t'.get? x = t.get? x
  stale : ∀ {x}, t.get? x = none → t'.get? x = none

theorem Installed.congr {t'' : Tree} (h : Installed t₀ t t' hole new) (hnodes : t''.nodes = t'.nodes) :
    Installed t₀ t t'' hole new := by
  have hget (x : NodeId) : t''.get? x = t'.get? x := by rw [get?, get?, hnodes]
  refine ⟨hnodes ▸ h.size, ?_, fun hx hn => ?_, fun hx hne => ?_, fun hx => ?_⟩
  · rw [parent?, hget]
    exact h.place
  · rw [hget]
    exact h.node hx hn
  · rw [hget, h.below hx hne]
  · rw [hget, h.stale hx]

namespace Gathered

/-- **A new node that takes the place keeps all that it has.** -/
theorem installed (h : Gathered t₀ hole args pending t) (hnew : t₀.nodes.size ≤ new.index)
    (hr : Replaced t t' hole new parent) : Installed t₀ t t' hole new := by
  obtain ⟨⟨m, hm, -⟩, -⟩ := hr.loose
  have hhole : ¬ t.Below hole new := fun hb => by
    rcases h.below_known (.inl hnew) hm hb with hfresh | ⟨a, ha, ⟨n, hn⟩, hba⟩
    · exact absurd h.arguments.hole_lt (Nat.not_lt.2 hfresh)
    · exact h.origin.acyclic hole (.trans_right ((h.below_iff ha hn).1 hba) (h.arguments.below a ha))
  have habove : ¬ t.Below new hole := fun hb => hr.ne (hr.loose.eq_of_below hb)
  have hkept {x : NodeId} (hx : t.Below x new) : ¬ t.Below x hole := fun hb =>
    (below_total hx hb).elim habove hhole
  have hparent {x : NodeId} (hx : t.Below x new) : x ≠ parent := by
    rintro rfl
    exact hhole (.head hr.held hx)
  have hget {x : NodeId} {n : Node} (hx : t.Below x new) (hn : t.get? x = some n) :
      t'.get? x = some { n with parent := if x = new then some parent else n.parent } := by
    rw [hr.node (hkept hx), hn]
    simp [hparent hx]
  have hstale {x : NodeId} (hx : t.get? x = none) : t'.get? x = none := by
    by_cases hb : t.Below x hole
    · exact hr.gone hb
    · rw [hr.node hb, hx]
      rfl
  refine ⟨Nat.le_of_eq hr.size.symm, ?_, fun hx hn => ⟨_, hget hx hn⟩, fun {x} hx hne => ?_, hstale⟩
  · rw [← h.place hole (by simp), show t.parent? hole = some parent from hr.held]
    exact hr.placed habove
  · cases hn : t.get? x with
    | none => exact hstale hn
    | some n => simpa [hne] using hget hx hn

theorem carries_installed (h : Gathered t₀ hole args pending t) (hi : Installed t₀ t t' hole new)
    (hcarries : t.Carries args new l) : t'.Carries args new l := by
  obtain ⟨n, hn⟩ := hcarries.live
  obtain ⟨ids, hwalk, hfilter⟩ := hcarries
  refine ⟨ids, ?_, hfilter⟩
  rw [← hwalk]
  refine walk_congr h.consistent hi.size (fun x m hx hm => ?_) hn
  obtain ⟨p, hm'⟩ := hi.node hx hm
  exact ⟨_, hm', rfl⟩

theorem sameBelow_installed (h : Gathered t₀ hole args pending t) (hi : Installed t₀ t t' hole new)
    (hnew : t₀.nodes.size ≤ new.index) (ha : a ∈ args) (hb : t.Below a new) : t₀.SameBelow t' a := by
  have hne {x : NodeId} {m : Node} (hm : t₀.get? x = some m) : x ≠ new := by
    rintro rfl
    exact absurd (lt_size_of_get? hm) (Nat.not_lt.2 hnew)
  obtain ⟨n, hn⟩ : ∃ n, t.get? a = some n := by
    rcases Relation.ReflTransGen.cases_head hb with rfl | ⟨q, hq, -⟩
    · exact absurd (h.arguments.index_lt ha) (Nat.not_lt.2 hnew)
    · exact (parent?_eq_some_iff.1 hq).imp fun _ => And.left
  have hsame := h.intact ha hn
  obtain ⟨m, p, hm, hm'⟩ := hsame.node
  obtain ⟨p', hm''⟩ := hi.node hb hm'
  refine ⟨⟨m, p', hm, hm''⟩, fun x hx => ?_⟩
  obtain ⟨q, hq, -⟩ := Relation.TransGen.head'_iff.1 hx
  obtain ⟨mx, hmx, -⟩ := parent?_eq_some_iff.1 hq
  have hxa : t.Below x a := (h.below_iff ha hn).2 hx.to_reflTransGen
  exact (hi.below (hxa.trans hb) (hne hmx)).trans (hsame.below x hx)

end Gathered

end Specializer.Tree
