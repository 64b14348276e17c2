import Specializer.Proofs.Tree.Plain
import Specializer.Proofs.Tree.Walk

/-!
# Imports that turn out to run no code

The one thing a walk may learn without saying so is that an import runs no code. `Tree.Narrows` is what this does to a
tree. Two facts say what follows for the nodes around such an import:

* what had no side effects before has none afterwards (`Narrows.anyOperandUpTo_eq_false`);
* nothing changes for a node unless the import is within it (`Consistent.anyOperandUpTo_congr`).

Within a node are the nodes a walk of its unit gets to from there. Different children of a node have nothing in common
(`Consistent.within_unique`), and neither have different units, apart from the functions where one begins and the other
ends (`Consistent.unit_unique`).
-/

namespace Specializer.Tree

/-! ## What is within a node -/

/-- A walk of a unit goes on from the first node to the second: the bodies of functions are units of their own. -/
def Descends (t : Tree) (unit id child : NodeId) : Prop :=
  t.IsParent child id ∧ (t.kind id = .ok .functionBody → id = unit)

/-- A walk of a unit gets from the first node to the second. -/
abbrev Within (t : Tree) (unit : NodeId) : NodeId → NodeId → Prop := Relation.ReflTransGen (t.Descends unit)

section Within

variable {t t' : Tree} {unit id x y p c c' : NodeId}

theorem descends_of_plain (h : t'.plain = t.plain) : t'.Descends unit = t.Descends unit := by
  funext id child
  have hparent : t'.parent? child = t.parent? child := eq_of_plain (·.parent? child) (parent?_plain · child) h
  have hkind : t'.kind id = t.kind id := eq_of_plain (·.kind id) (kind_plain · id) h
  simp only [Descends, IsParent, hparent, hkind]

theorem below_of_within (h : t.Within unit x y) : t.Below y x := by
  induction h with
  | refl => exact .refl
  | tail _ hstep ih => exact .head hstep.1 ih

/-- What is within two children of a node is within one. -/
theorem Consistent.within_unique (h : t.Consistent) (hc : t.IsParent c p) (hc' : t.IsParent c' p)
    (hy : t.Within unit c y) (hy' : t.Within unit c' y) : c = c' :=
  h.below_unique hc hc' (below_of_within hy) (below_of_within hy')

/-- A node that is not the body of a function is within one unit only. -/
theorem Consistent.unit_unique (h : t.Consistent) {unit unit' : NodeId}
    (hunit : t.root = some unit ∨ t.kind unit = .ok .functionBody)
    (hunit' : t.root = some unit' ∨ t.kind unit' = .ok .functionBody) (hy : t.Within unit unit y)
    (hy' : t.Within unit' unit' y) (hkind : t.kind y ≠ .ok .functionBody) : unit = unit' := by
  have top {u : NodeId} (hu : t.root = some u ∨ t.kind u = .ok .functionBody) (hk : t.kind u ≠ .ok .functionBody) :
      t.parent? u = none := h.parent?_root (hu.resolve_right hk)
  induction hy with
  | refl =>
    rcases Relation.ReflTransGen.cases_tail hy' with heq | ⟨z, -, hz⟩
    · exact heq
    · exact absurd (hz.1.symm.trans (top hunit hkind)) (by simp)
  | @tail z y _ hstep ih =>
    rcases Relation.ReflTransGen.cases_tail hy' with rfl | ⟨z', hz', hstep'⟩
    · exact absurd (hstep.1.symm.trans (top hunit' hkind)) (by simp)
    · obtain rfl : z' = z := Option.some.inj (hstep'.1.symm.trans hstep.1)
      by_cases hz : t.kind z' = .ok .functionBody
      · exact (hstep.2 hz).symm.trans (hstep'.2 hz)
      · exact ih hz' hz

end Within

/-! ## Imports that run no code -/

theorem anyOperandUpTo_succ_eq_false_iff {t : Tree} {test : Node → Bool} {fuel : Nat} {id : NodeId} :
    t.anyOperandUpTo test (fuel + 1) id = .ok false ↔ ∃ n, t.get? id = some n ∧ test n = false ∧
      ((n.kind = .functionBody ∨ n.kind = .module) ∨ ∀ c ∈ n.children, t.anyOperandUpTo test fuel c = .ok false) := by
  simp only [← anyM_eq_false_iff]
  cases hn : t.get? id with
  | none => simp [anyOperandUpTo, node_eq_error_iff.2 ⟨hn, rfl⟩]
  | some n =>
    simp only [anyOperandUpTo, node_of_get? hn, ok_bind, Option.some.injEq, exists_eq_left']
    split
    · simp_all
    · split <;> simp_all

/-- The second tree knows of some imports that they run no code, and is like the first otherwise. -/
structure Narrows (inside : NodeId → Prop) (t t' : Tree) : Prop where
  plain : t'.plain = t.plain
  node : ∀ {id n}, t.get? id = some n → t'.get? id = some n ∨
    inside id ∧ n.kind = .importModule ∧ t'.get? id = some { n with override := some .quietImport }

namespace Narrows

variable {inside inside' : NodeId → Prop} {t t' t'' : Tree} {id : NodeId} {n : Node}

theorem refl (inside : NodeId → Prop) (t : Tree) : Narrows inside t t := ⟨rfl, Or.inl⟩

theorem trans (h : Narrows inside t t') (h' : Narrows inside t' t'') : Narrows inside t t'' := by
  refine ⟨h'.plain.trans h.plain, fun {id n} hn => ?_⟩
  rcases h.node hn with hn' | ⟨hid, hkind, hn'⟩
  · exact h'.node hn'
  · rcases h'.node hn' with hn'' | ⟨-, -, hn''⟩
    · exact Or.inr ⟨hid, hkind, hn''⟩
    · exact Or.inr ⟨hid, hkind, hn''⟩

theorem mono (h : Narrows inside t t') (himp : ∀ id, inside id → inside' id) : Narrows inside' t t' :=
  ⟨h.plain, fun hn => (h.node hn).imp_right fun ⟨hid, hrest⟩ => ⟨himp _ hid, hrest⟩⟩

/-- A node that is no import, or is not inside, stays as it is. -/
theorem get?_eq (h : Narrows inside t t') (hid : t.kind id = .ok .importModule → ¬ inside id) : t'.get? id = t.get? id := by
  cases hn : t.get? id with
  | none =>
    have hplain : t'.plain.get? id = t.plain.get? id := by rw [h.plain]
    simpa [hn] using hplain
  | some n =>
    rcases h.node hn with hn' | ⟨hinside, hkind, -⟩
    · exact hn'
    · have hk : t.kind id = .ok .importModule := by simp [Tree.kind, node_of_get? hn, hkind]
      exact absurd hinside (hid hk)

theorem override (hn : t.get? id = some n) (hkind : n.kind = .importModule) :
    Narrows (· = id) t (t.modifyNode id fun n => { n with override := some .quietImport }) := by
  refine ⟨?_, fun {x m} hm => ?_⟩
  · have hnodes : (t.modifyNode id fun n => { n with override := some .quietImport }).plain.nodes = t.plain.nodes := by
      refine Array.ext_getElem? fun i => ?_
      simp only [Tree.plain, modifyNode, Array.getElem?_map, Array.getElem?_modify]
      split
      · cases t.nodes[i]? with
        | none => rfl
        | some n? => cases n? <;> rfl
      · rfl
    exact congrArg (fun nodes => { t with nodes }) hnodes
  · by_cases hx : x = id
    · subst hx
      obtain rfl : n = m := Option.some.inj (hn.symm.trans hm)
      exact Or.inr ⟨rfl, hkind, by rw [get?_modifyNode_self, hn]; rfl⟩
    · exact Or.inl ((get?_modifyNode_of_ne t _ hx).trans hm)

/-- What no operand does before, none does afterwards. -/
theorem anyOperandUpTo_eq_false (h : Narrows inside t t') {test : Node → Bool}
    (htest : ∀ n : Node, test { n with override := some .quietImport } = false) {fuel : Nat}
    (hfalse : t.anyOperandUpTo test fuel id = .ok false) : t'.anyOperandUpTo test fuel id = .ok false := by
  induction fuel generalizing id with
  | zero => rfl
  | succ fuel ih =>
    obtain ⟨n, hn, htestn, hbelow⟩ := anyOperandUpTo_succ_eq_false_iff.1 hfalse
    rcases h.node hn with hn' | ⟨-, -, hn'⟩
    · exact anyOperandUpTo_succ_eq_false_iff.2 ⟨n, hn', htestn, hbelow.imp_right fun hall c hc => ih (hall c hc)⟩
    · exact anyOperandUpTo_succ_eq_false_iff.2 ⟨_, hn', htest n, hbelow.imp_right fun hall c hc => ih (hall c hc)⟩

theorem mayHaveSideEffects_eq_false (h : Narrows inside t t') (hfalse : t.mayHaveSideEffects id = .ok false) :
    t'.mayHaveSideEffects id = .ok false := by
  have hsize : t'.nodes.size = t.nodes.size := eq_of_plain (·.nodes.size) size_plain h.plain
  rw [mayHaveSideEffects, anyOperand] at hfalse ⊢
  rw [hsize]
  exact h.anyOperandUpTo_eq_false (fun _ => rfl) hfalse

end Narrows

/-! ## What does not matter to a node -/

section Frame

variable {t t' : Tree} {unit id : NodeId}

theorem Consistent.anyOperandUpTo_congr (h : t.Consistent) (test : Node → Bool) {fuel : Nat}
    (hsame : ∀ y, t.Within unit id y → t'.get? y = t.get? y) :
    t'.anyOperandUpTo test fuel id = t.anyOperandUpTo test fuel id := by
  induction fuel generalizing id with
  | zero => rfl
  | succ fuel ih =>
    cases hn : t.get? id with
    | none =>
      have hn' : t'.get? id = none := (hsame id .refl).trans hn
      simp only [anyOperandUpTo, node_eq_error_iff.2 ⟨hn, rfl⟩, node_eq_error_iff.2 ⟨hn', rfl⟩, error_bind]
    | some n =>
      have hn' : t'.get? id = some n := (hsame id .refl).trans hn
      have hchildren (hkind : ¬ (n.kind = .functionBody ∨ n.kind = .module)) :
          n.children.anyM (t'.anyOperandUpTo test fuel) = n.children.anyM (t.anyOperandUpTo test fuel) := by
        refine anyM_congr fun c hc => ih fun y hy => hsame y (.head ⟨(h.isParent_iff hn).2 hc, fun hbody => ?_⟩ hy)
        rw [Tree.kind, node_of_get? hn] at hbody
        exact absurd (Or.inl (Except.ok.inj hbody)) hkind
      simp only [anyOperandUpTo, node_of_get? hn, node_of_get? hn', ok_bind]
      split
      · rfl
      · split
        · rfl
        · next hkind => exact hchildren hkind

theorem Consistent.isObservable_congr (h : t.Consistent) (hplain : t'.plain = t.plain)
    (hsame : ∀ y, t.Within unit id y → t'.get? y = t.get? y) : t'.isObservable id = t.isObservable id := by
  have hsize : t'.nodes.size = t.nodes.size := eq_of_plain (·.nodes.size) size_plain hplain
  simp only [isObservable, mayHaveSideEffects, mayRaise, anyOperand, hsize, h.anyOperandUpTo_congr _ hsame]

end Frame

end Specializer.Tree
