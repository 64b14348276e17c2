import Specializer.Proofs.Tree.Inversion
import Specializer.Proofs.Tree.Operation

/-!
# Replacements can be undone

A node gives way to another one in a single place (`Swapped`): one entry of one slot of the parent, and the two links
that belong to it. Everything else is as it was. So the old node can take its place again, and that gives back the
tree there was before, positions in sequences included (`Built.replaceWith_reversible`).

Two trees with as many handles, the same root and variables, and the same node at every handle are one tree
(`eq_of_get?`).
-/

namespace Specializer

namespace Slot

/-- One entry of a slot has been exchanged. All others stand where they stood. -/
inductive Swaps (old new : NodeId) : Slot → Slot → Prop where
  | one : Swaps old new (.one (some old)) (.one (some new))
  | many (before after : List NodeId) :
    Swaps old new (.many (before ++ old :: after)) (.many (before ++ new :: after))

variable {old new : NodeId} {s : Slot}

/-- Where a node stands once, renaming it exchanges that one entry. -/
theorem swaps_renamed (h : s.ids.count old = 1) : s.Swaps old new (s.renamed old new) := by
  rcases s with (_ | c) | cs
  · simp [ids] at h
  · obtain rfl : c = old := by
      by_contra hne
      simp [ids, hne] at h
    simpa [renamed] using Swaps.one
  · obtain ⟨before, after, rfl⟩ := List.append_of_mem (List.count_pos_iff.1 (Nat.lt_of_lt_of_eq Nat.zero_lt_one h.symm))
    replace h : (before ++ old :: after).count old = 1 := h
    rw [List.count_append, List.count_cons_self] at h
    have hbefore : old ∉ before := List.count_eq_zero.1 (by omega)
    have hafter : old ∉ after := List.count_eq_zero.1 (by omega)
    simpa [renamed, map_ite_of_not_mem hbefore, map_ite_of_not_mem hafter] using Swaps.many before after

end Slot

/-- Of slots that hold a node once, renaming the node changes one. -/
theorem exists_swaps {slots : List Slot} {old : NodeId} (new : NodeId) (h : (slots.flatMap Slot.ids).count old = 1) :
    ∃ before s s' after, slots = before ++ s :: after ∧ s.Swaps old new s' ∧
      slots.map (Slot.renamed old new) = before ++ s' :: after := by
  have hmem : old ∈ slots.flatMap Slot.ids := List.count_pos_iff.1 (by omega)
  obtain ⟨s, hs, hold⟩ := List.mem_flatMap.1 hmem
  obtain ⟨before, after, rfl⟩ := List.append_of_mem hs
  have hpos : 0 < s.ids.count old := List.count_pos_iff.2 hold
  rw [List.flatMap_append, List.flatMap_cons, List.count_append, List.count_append] at h
  have hsame {rest : List Slot} (hrest : (rest.flatMap Slot.ids).count old = 0) :
      rest.map (Slot.renamed old new) = rest := by
    conv => rhs; rw [← List.map_id rest]
    exact List.map_congr_left fun r hr => Slot.renamed_of_not_mem fun hmem =>
      List.count_eq_zero.1 hrest (List.mem_flatMap.2 ⟨r, hr, hmem⟩)
  refine ⟨before, s, s.renamed old new, after, rfl, Slot.swaps_renamed (by omega), ?_⟩
  rw [List.map_append, List.map_cons, hsame (by omega), hsame (by omega)]

theorem map_renamed_renamed {slots : List Slot} {old new : NodeId} (h : new ∉ slots.flatMap Slot.ids) :
    (slots.map (Slot.renamed old new)).map (Slot.renamed new old) = slots := by
  rw [List.map_map]
  conv => rhs; rw [← List.map_id slots]
  refine List.map_congr_left fun s hs => ?_
  have hfresh : new ∉ s.ids := fun hmem => h (List.mem_flatMap.2 ⟨s, hs, hmem⟩)
  exact (Slot.renamed_renamed hfresh).trans (Slot.renamed_self s old)

namespace Tree

variable {t t' : Tree} {old new parent : NodeId}

/-- Trees are told apart by their nodes, root and variables. -/
theorem eq_of_get? (hsize : t'.nodes.size = t.nodes.size) (hget : ∀ x, t'.get? x = t.get? x) (hroot : t'.root = t.root)
    (hbindings : t'.bindings = t.bindings) : t' = t := by
  have hnodes : t'.nodes = t.nodes := by
    refine Array.ext hsize fun i hi' hi => ?_
    simpa [get?, hi', hi] using hget ⟨i⟩
  cases t
  cases t'
  simp_all

/-- The node `new` stands below `parent` in the place of `old`; nothing else is different. -/
structure Swapped (t t' : Tree) (old new parent : NodeId) : Prop where
  root : t'.root = t.root
  bindings : t'.bindings = t.bindings
  size : t'.nodes.size = t.nodes.size
  /-- One entry of one slot is exchanged. -/
  holder : ∃ n before s s' after, t.get? parent = some n ∧ n.slots = before ++ s :: after ∧ s.Swaps old new s' ∧
    t'.get? parent = some { n with slots := before ++ s' :: after }
  removed : ∃ m, t.get? old = some m ∧ m.parent = some parent ∧ t'.get? old = some { m with parent := none }
  added : ∃ m, t.get? new = some m ∧ m.parent = none ∧ t'.get? new = some { m with parent := some parent }
  other : ∀ x, x ≠ parent → x ≠ old → x ≠ new → t'.get? x = t.get? x

namespace Consistent

variable {n : Node} (h : t.Consistent) (hp : t.get? parent = some n) (hold : t.IsParent old parent)
  (hnew : t.Loose new) (hnot : ¬ t.StrictlyBelow old new)
  (hr : Relinked t t' parent (n.slots.map (Slot.renamed old new)) (some new) (some old))
include h hp hold hnew hnot hr

theorem swapped : t.Swapped t' old new parent := by
  obtain ⟨m, hm, hmp⟩ := parent?_eq_some_iff.1 hold
  obtain ⟨k, hk, hkp⟩ := hnew.live
  have hno : new ≠ old := fun e => hnew.not_isParent (e ▸ hold)
  have hop : old ≠ parent := h.ne_of_isParent hold
  have hnp : new ≠ parent := fun e => hnot (e ▸ .single hold)
  obtain ⟨before, s, s', after, hslots, hswaps, hrenamed⟩ :=
    exists_swaps new (h.count_children hp ((h.isParent_iff hp).1 hold))
  refine ⟨hr.root, hr.bindings, hr.size, ⟨n, before, s, s', after, hp, hslots, hswaps, ?_⟩, ⟨m, hm, hmp, ?_⟩,
    ⟨k, hk, hkp, ?_⟩, fun x hxp hxo hxn => ?_⟩
  · simp [hr.get?, hp, hrenamed, hnp, hop]
  · simp [hr.get?, hm, hop, hno]
  · simp [hr.get?, hk, hnp]
  · rw [hr.get?]
    cases t.get? x with
    | none => rfl
    | some m => simp [hxp, Ne.symm hxo, Ne.symm hxn]

/-- Exchanging the two nodes the other way round as well leaves nothing changed. -/
theorem eq_of_relinked {t'' : Tree} (hr' : Relinked t' t'' parent n.slots (some old) (some new)) : t'' = t := by
  obtain ⟨m, hm, hmp⟩ := parent?_eq_some_iff.1 hold
  obtain ⟨k, hk, hkp⟩ := hnew.live
  have hno : new ≠ old := fun e => hnew.not_isParent (e ▸ hold)
  have hop : old ≠ parent := h.ne_of_isParent hold
  have hnp : new ≠ parent := fun e => hnot (e ▸ .single hold)
  refine eq_of_get? (hr'.size.trans hr.size) (fun x => ?_) (hr'.root.trans hr.root) (hr'.bindings.trans hr.bindings)
  rw [hr'.get?, hr.get?]
  by_cases hxo : x = old
  · subst hxo
    simp only [hm, Option.map_some, if_true, if_neg hop, Option.some.injEq]
    rw [← hmp]
  by_cases hxn : x = new
  · subst hxn
    simp only [hk, Option.map_some, Option.some.injEq, if_neg (Ne.symm hno), if_true, if_neg hnp]
    rw [← hkp]
  by_cases hxp : x = parent
  · subst hxp
    simp [hp, Ne.symm hxo, Ne.symm hxn]
  · cases t.get? x with
    | none => rfl
    | some j => simp [hxp, Ne.symm hxo, Ne.symm hxn]

/-- The old node can take its place again, and then the tree is the old one. -/
theorem replaceWith_back : TreeM.replaceWith new old t' = .ok () t := by
  have hc : t'.Consistent := h.relinked hr (h.exchange_renamed hp hold hnew hnot)
  have hs := h.swapped hp hold hnew hnot hr
  obtain ⟨m, -, -, hm'⟩ := hs.removed
  obtain ⟨k, -, -, hk'⟩ := hs.added
  have hno : new ≠ old := fun e => hnew.not_isParent (e ▸ hold)
  have hnp : new ≠ parent := fun e => hnot (e ▸ .single hold)
  have hp' : t'.get? parent = some { n with slots := n.slots.map (Slot.renamed old new) } := by
    simp [hr.get?, hp, hnp, h.ne_of_isParent hold]
  have hplace : t'.IsParent new parent := parent?_eq_some_iff.2 ⟨_, hk', rfl⟩
  have hloose : t'.Loose old := ⟨⟨_, hm', rfl⟩, hs.root ▸ h.ne_root_of_parent? hold⟩
  -- the old node is not above its parent, so it is not above the new one either
  have hnot' : ¬ t'.StrictlyBelow new old := by
    intro hb
    obtain ⟨q, hq, hrest⟩ := Relation.TransGen.head'_iff.1 hb
    obtain rfl : q = parent := Option.some.inj (hq.symm.trans hplace)
    exact h.acyclic old (.head' hold ((hr.below_old_iff h hold hnew hno).1 hrest))
  obtain ⟨t'', hrun, hr'⟩ := hc.replaceWith_ok hp' hplace hloose hnot'
  have hfresh : new ∉ n.slots.flatMap Slot.ids := fun hmem => hnew.not_isParent ((h.isParent_iff hp).2 hmem)
  have hback : t'' = t := h.eq_of_relinked hp hold hnew hnot hr (by rwa [map_renamed_renamed hfresh] at hr')
  rw [hrun, hback]

end Consistent

/-- **Replacing a node can be undone.** In every tree that operations build, a replacement that is not refused exchanges
one entry of one slot and the links of the two nodes, and nothing else; the reverse replacement is not refused either,
and the tree is again what it was. -/
theorem Built.replaceWith_reversible (ht : t.Built) (h : TreeM.replaceWith old new t = .ok () t') :
    (∃ parent, t.Swapped t' old new parent) ∧ TreeM.replaceWith new old t' = .ok () t := by
  obtain ⟨parent, n, hp, hold, hnew, hnot, hr⟩ := ht.consistent.replaceWith_eq_ok h
  exact ⟨⟨parent, ht.consistent.swapped hp hold hnew hnot hr⟩, ht.consistent.replaceWith_back hp hold hnew hnot hr⟩

/-- Side effects `#0`, `#1` and `#2` before an expression, and a constant `#5` beside them. -/
def threeEffects : Tree :=
  .applyAll {} [.makeConstant (.str "a") .internal, .makeConstant (.str "b") .internal,
    .makeConstant (.str "c") .internal, .makeConstant (.bool true) .internal,
    .makeSideEffects [⟨0⟩, ⟨1⟩, ⟨2⟩] ⟨3⟩ .internal, .makeConstant (.str "d") .internal]

/-- The effect in the middle gives way and comes back to its position. -/
theorem replaceWith_reversible_middle : threeEffects.Built ∧
    ∃ t', TreeM.replaceWith ⟨1⟩ ⟨5⟩ threeEffects = .ok () t' ∧
      (t'.get? ⟨4⟩).map Node.slots = some [.many [⟨0⟩, ⟨5⟩, ⟨2⟩], .filled ⟨3⟩] ∧
      TreeM.replaceWith ⟨5⟩ ⟨1⟩ t' = .ok () threeEffects := by
  have hbuilt : threeEffects.Built := ⟨_, rfl⟩
  have hrun : TreeM.replaceWith ⟨1⟩ ⟨5⟩ threeEffects = .ok () (threeEffects.after (TreeM.replaceWith ⟨1⟩ ⟨5⟩)) := rfl
  exact ⟨hbuilt, _, hrun, rfl, (hbuilt.replaceWith_reversible hrun).2⟩

end Tree

end Specializer
