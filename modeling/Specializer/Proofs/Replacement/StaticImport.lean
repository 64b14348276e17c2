import Specializer.Proofs.Replacement.CallSite
import Specializer.Proofs.Replacement.Caution
import Specializer.Proofs.Tree.Narrowing

/-!
# Imports that can be made static

`Tree.isStaticImport` says which calls of `__import__` become static imports: the name is a text, the other arguments
are known, and the namespaces have no side effects. The last condition is the only decision on the way down that looks at
what is known about single nodes. What a walk learns about imports can only make it true
(`Narrows.isStaticImport`).
-/

namespace Specializer

/-- The module an import asks for, if it is a text. -/
def ReplaceM.importName? : ImportOperand → Option String
  | .constant (.str name) => some name
  | _ => none

namespace Tree

/-- An operand of an import. -/
def importOperand (t : Tree) (id : NodeId) (slot : String) : ReplaceM.ImportOperand :=
  match t.child id slot with
  | .ok (some operand) => match t.constant? operand with
    | some value => .constant value
    | none => .unknown
  | _ => .missing

/-- Whether an operand is there and may have side effects. -/
def hasEffectsIn (t : Tree) (id : NodeId) (slot : String) : Bool :=
  match t.child id slot with
  | .ok (some operand) => t.mayHaveSideEffects operand ≠ .ok false
  | _ => false

/-- Whether a node is a call of `__import__` that can be made static. -/
def isStaticImport (t : Tree) (version : Version) (id : NodeId) : Bool :=
  t.kind id = .ok .builtinImport && !t.hasEffectsIn id "globals" && !t.hasEffectsIn id "locals" &&
    (ReplaceM.importName? (t.importOperand id "name")).isSome &&
    (ReplaceM.importedNames? (t.importOperand id "fromlist")).isSome &&
    (ReplaceM.importLevel? version (t.importOperand id "level")).isSome

variable {t t' : Tree} {id : NodeId} {version : Version}

theorem importOperand_of_plain (h : t'.plain = t.plain) (slot : String) :
    t'.importOperand id slot = t.importOperand id slot := by
  have hchild : t'.child id slot = t.child id slot := eq_of_plain (·.child id slot) (child_plain · id slot) h
  have hconstant : t'.constant? = t.constant? := eq_of_plain (·.constant?) constant?_plain' h
  simp only [importOperand, hchild, hconstant]

/-- An operand without side effects gets none. -/
theorem Narrows.hasEffectsIn {inside : NodeId → Prop} (h : Narrows inside t t') {slot : String}
    (hnone : t.hasEffectsIn id slot = false) : t'.hasEffectsIn id slot = false := by
  have hchild : t'.child id slot = t.child id slot := eq_of_plain (·.child id slot) (child_plain · id slot) h.plain
  unfold Tree.hasEffectsIn at hnone ⊢
  rw [hchild]
  split
  · next operand hoperand =>
    simp only [hoperand, ne_eq, decide_not, Bool.not_eq_false', decide_eq_true_eq] at hnone
    simp [h.mayHaveSideEffects_eq_false hnone]
  · rfl

/-- **What can be made static stays so** when imports turn out to run no code. -/
theorem Narrows.isStaticImport {inside : NodeId → Prop} (h : Narrows inside t t')
    (hstatic : t.isStaticImport version id = true) : t'.isStaticImport version id = true := by
  have hkind : t'.kind id = t.kind id := eq_of_plain (·.kind id) (kind_plain · id) h.plain
  simp only [Tree.isStaticImport, Bool.and_eq_true, Bool.not_eq_true'] at hstatic ⊢
  obtain ⟨⟨⟨⟨⟨himport, hglobals⟩, hlocals⟩, hname⟩, hnames⟩, hlevel⟩ := hstatic
  rw [hkind, importOperand_of_plain h.plain, importOperand_of_plain h.plain, importOperand_of_plain h.plain]
  exact ⟨⟨⟨⟨⟨himport, h.hasEffectsIn hglobals⟩, h.hasEffectsIn hlocals⟩, hname⟩, hnames⟩, hlevel⟩

end Tree

namespace ReplaceM

open Specializer.Tree

variable {s : Settings} {t : Tree} {w : Workspace} {id : NodeId} {n : Node}

theorem hasSideEffects_ok (h : w.tree.Consistent) (hn : w.tree.get? id = some n) (slot : String)
    (hsingle : n.kind.isSingle slot = true) : hasSideEffects id slot s w = .ok (w.tree.hasEffectsIn id slot) w := by
  obtain ⟨c?, hchild, hslot⟩ := h.child_ok hn slot hsingle
  rw [hasSideEffects, reads_bind_of_ok (ask_ok hchild), hasEffectsIn, hchild]
  cases c? with
  | none => rfl
  | some c =>
    obtain ⟨m, hm, -⟩ := h.held hn (Node.mem_children_of_inSlot (show c ∈ n.inSlot slot by simp [hslot]))
    obtain ⟨b, hb⟩ := h.anyOperand_ok (·.capabilities.sideEffects) hm
    replace hb : w.tree.mayHaveSideEffects c = .ok b := hb
    dsimp only
    rw [ask_ok hb, hb]
    cases b <;> rfl

theorem importOperand_ok (h : w.tree.Consistent) (hn : w.tree.get? id = some n) (slot : String)
    (hsingle : n.kind.isSingle slot = true) : importOperand id slot s w = .ok (w.tree.importOperand id slot) w := by
  obtain ⟨c?, hchild, -⟩ := h.child_ok hn slot hsingle
  rw [importOperand, reads_bind_of_ok (ask_ok hchild), Tree.importOperand, hchild]
  cases c? with
  | none => rfl
  | some c =>
    dsimp only
    rw [reads_bind_of_ok tree_ok]
    cases w.tree.constant? c <;> rfl

/-- **An import is left alone exactly if it cannot be made static.** -/
theorem foldImport_cases (h : w.tree.Consistent) (hn : w.tree.get? id = some n) (hkind : n.kind = .builtinImport) :
    (w.tree.isStaticImport s.options.version id = false ∧ foldImport id s w = .ok (.unchanged id) w) ∨
      (w.tree.isStaticImport s.options.version id = true ∧
        ∀ c w', foldImport id s w = .ok c w' → c.isChanged = true) := by
  have himport : w.tree.kind id = .ok .builtinImport := (kind_ok hn).trans (congrArg _ hkind)
  unfold foldImport
  rw [reads_bind_of_ok (hasSideEffects_ok h hn "globals" (by rw [hkind]; decide))]
  cases hglobals : w.tree.hasEffectsIn id "globals" with
  | true => exact Or.inl ⟨by simp [isStaticImport, hglobals], rfl⟩
  | false =>
  simp only [Bool.false_eq_true, if_false]
  rw [reads_bind_of_ok (hasSideEffects_ok h hn "locals" (by rw [hkind]; decide))]
  cases hlocals : w.tree.hasEffectsIn id "locals" with
  | true => exact Or.inl ⟨by simp [isStaticImport, hlocals], rfl⟩
  | false =>
  simp only [Bool.false_eq_true, if_false]
  rw [reads_bind_of_ok (importOperand_ok h hn "name" (by rw [hkind]; decide))]
  generalize hname : w.tree.importOperand id "name" = operand
  rcases operand with _ | value | _
  · exact Or.inl ⟨by simp [isStaticImport, hname, importName?], rfl⟩
  · cases value with
    | str name =>
      dsimp only
      rw [reads_bind_of_ok (importOperand_ok h hn "fromlist" (by rw [hkind]; decide))]
      cases hnames : importedNames? (w.tree.importOperand id "fromlist") with
      | none => exact Or.inl ⟨by simp [isStaticImport, hnames], rfl⟩
      | some names =>
      dsimp only
      rw [reads_bind_of_ok version_ok, reads_bind_of_ok (importOperand_ok h hn "level" (by rw [hkind]; decide))]
      cases hlevel : importLevel? s.options.version (w.tree.importOperand id "level") with
      | none => exact Or.inl ⟨by simp [isStaticImport, hlevel], rfl⟩
      | some level =>
      refine Or.inr ⟨?_, fun c w' hrun => ?_⟩
      · simp [isStaticImport, himport, hglobals, hlocals, hname, importName?, hnames, hlevel]
      · obtain ⟨source, w₁, -, hrun⟩ := reads_bind_eq_ok_iff.1 hrun
        obtain ⟨imported, w₂, -, hrun⟩ := reads_bind_eq_ok_iff.1 hrun
        cases hrun
        rfl
    | _ => exact Or.inl ⟨by simp [isStaticImport, hname, importName?], rfl⟩
  · exact Or.inl ⟨by simp [isStaticImport, hname, importName?], rfl⟩

end ReplaceM

end Specializer
