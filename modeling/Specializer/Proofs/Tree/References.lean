import Mathlib.Data.List.Perm.Subperm
import Specializer.Proofs.Tree.Evolution
import Specializer.Proofs.Tree.Strays
import Specializer.Proofs.Tree.Traversal

/-!
# References to variables

A reference to a variable is a node below the root that reads it. Counting them gives the number of all references, each
once (`Consistent.exists_references`).

While a tree is worked on, no references are made. So their number can only fall, and it falls exactly if one of them is
torn down (`Evolved.references_lt_iff`).
-/

namespace Specializer.Tree

variable {t t₁ t' : Tree} {id x : NodeId} {v : VariableId} {n : Node}

/-- A live node reads a variable. -/
def Mentions (t : Tree) (x : NodeId) (v : VariableId) : Prop := ∃ n, t.get? x = some n ∧ n.isReferenceTo v = true

/-- A node below the root reads a variable. -/
structure IsReference (t : Tree) (x : NodeId) (v : VariableId) : Prop where
  reachable : t.Reachable x
  mentions : t.Mentions x v

/-- How many nodes below the root read a variable. -/
def references (t : Tree) (v : VariableId) : Nat := (t.referenceCount v).toOption.getD 0

/-- How many references a variable had when they were last counted. -/
def usage? (t : Tree) (v : VariableId) : Option Nat := (t.bindings[v.index]?).map (·.usageCount)

theorem kind_of_isReferenceTo (h : n.isReferenceTo v = true) : n.kind = .variableRef ∧ n.referent? = some v := by
  simpa [Node.isReferenceTo] using h

/-- **Counting finds every reference once.** -/
theorem Consistent.exists_references (h : t.Consistent) (v : VariableId) : ∃ ids : List NodeId, ids.Nodup ∧
    (∀ x, x ∈ ids ↔ t.IsReference x v) ∧ t.references v = ids.length ∧ t.referenceCount v = .ok ids.length := by
  cases hroot : t.root with
  | none =>
    have hcount : t.referenceCount v = .ok 0 := by
      rw [referenceCount, hroot]
      rfl
    refine ⟨[], List.nodup_nil, fun x => ⟨nofun, fun hx => ?_⟩, by simp [references, hcount, Except.toOption], hcount⟩
    obtain ⟨r, hr, -⟩ := hx.reachable
    rw [hroot] at hr
    cases hr
  | some root =>
    obtain ⟨m, hm, -⟩ := h.root hroot
    obtain ⟨ids, hwalk, hmem⟩ := h.walk_ok hm
    have hcount : t.referenceCount v = .ok (ids.filter fun x => (t.get? x).any (·.isReferenceTo v)).length := by
      rw [referenceCount, hroot, ← List.countP_eq_length_filter]
      simp only [hwalk, ok_bind, except_pure]
    refine ⟨_, (h.nodup_walk hm hwalk).filter _, fun x => ?_, by simp [references, hcount, Except.toOption], hcount⟩
    rw [List.mem_filter, hmem, Option.any_eq_true]
    constructor
    · rintro ⟨hbelow, n, hn, hreads⟩
      exact ⟨⟨root, hroot, hbelow⟩, n, hn, hreads⟩
    · rintro ⟨⟨r, hr, hbelow⟩, n, hn, hreads⟩
      obtain rfl := Option.some.inj (hr.symm.trans hroot)
      exact ⟨hbelow, n, hn, hreads⟩

theorem Consistent.referenceCount_eq (h : t.Consistent) (v : VariableId) : t.referenceCount v = .ok (t.references v) := by
  obtain ⟨ids, -, -, hlength, hcount⟩ := h.exists_references v
  rw [hcount, hlength]

theorem Tidy.trans (h : Tidy t [] t₁) (h' : Tidy t₁ [] t') : Tidy t [] t' :=
  ⟨h.origin, h'.consistent, h'.root.trans h.root, fun hx => (h'.untouched (h.stray_iff.2 hx)).trans (h.untouched hx),
    fun hx => .inl (h.stray_iff.1 ((h'.loose hx).resolve_right (by simp))), nofun⟩

namespace Evolved

/-- The references are those from before that are still live. -/
theorem isReference_iff (h : Evolved t t') (htidy : Tidy t [] t') :
    t'.IsReference x v ↔ t.IsReference x v ∧ ∃ n, t'.get? x = some n := by
  constructor
  · rintro ⟨hreach, n', hn', hreads⟩
    obtain ⟨hkind, hreferent⟩ := kind_of_isReferenceTo hreads
    have hold : x.index < t.nodes.size := Nat.lt_of_not_le fun hnew => (h.new hnew hn').kind hkind
    obtain ⟨n, hn, hkeeps⟩ := h.old hold hn'
    refine ⟨⟨?_, n, hn, ?_⟩, n', hn'⟩
    · by_contra hnot
      exact htidy.not_stray_of_reachable hreach ⟨⟨n, hn⟩, hnot⟩
    · simpa [Node.isReferenceTo, Node.referent?, hkeeps.kind, hkeeps.payload] using hreads
  · rintro ⟨⟨hreach, n, hn, hreads⟩, n', hn'⟩
    obtain ⟨m, hm, hkeeps⟩ := h.old (lt_size_of_get? hn) hn'
    obtain rfl := Option.some.inj (hn.symm.trans hm)
    refine ⟨?_, n', hn', ?_⟩
    · by_contra hnot
      exact (htidy.stray_iff.1 ⟨⟨n', hn'⟩, hnot⟩).2 hreach
    · simpa [Node.isReferenceTo, Node.referent?, hkeeps.kind, hkeeps.payload] using hreads

/-- **References only get fewer, and they do if one is torn down.** -/
theorem references_lt_iff (h : Evolved t t') (htidy : Tidy t [] t') (v : VariableId) : t'.references v ≤ t.references v ∧
    (t'.references v < t.references v ↔ ∃ x, t.IsReference x v ∧ t'.get? x = none) := by
  obtain ⟨ids, hnodup, hmem, hlength, -⟩ := htidy.origin.exists_references v
  obtain ⟨ids', hnodup', hmem', hlength', -⟩ := h.consistent.exists_references v
  have hsub : ids'.Subperm ids := List.subperm_of_subset hnodup' fun x hx =>
    (hmem x).2 ((h.isReference_iff htidy).1 ((hmem' x).1 hx)).1
  rw [hlength, hlength']
  refine ⟨hsub.length_le, fun hlt => ?_, ?_⟩
  · by_contra hnone
    refine Nat.not_le.2 hlt (List.subperm_of_subset hnodup fun x hx => (hmem' x).2 ?_).length_le
    refine (h.isReference_iff htidy).2 ⟨(hmem x).1 hx, ?_⟩
    cases hn : t'.get? x with
    | none => exact absurd ⟨x, (hmem x).1 hx, hn⟩ hnone
    | some n => exact ⟨n, rfl⟩
  · rintro ⟨x, hx, hgone⟩
    by_contra hge
    have hperm := hsub.perm_of_length_le (Nat.not_lt.1 hge)
    obtain ⟨-, n, hn⟩ := (h.isReference_iff htidy).1 ((hmem' x).1 (hperm.mem_iff.2 ((hmem x).2 hx)))
    rw [hgone] at hn
    cases hn

end Evolved

/-- A tree with the same nodes as another one. -/
structure SameNodes (t t' : Tree) : Prop where
  nodes : t'.nodes = t.nodes
  root : t'.root = t.root
  bindings : t.bindings.size ≤ t'.bindings.size

namespace SameNodes

theorem tidy (h : SameNodes t t') (hc : t.Consistent) : Tidy t [] t' :=
  hc.tidy.of_get?_eq (fun x => by rw [get?, get?, h.nodes]) h.root h.bindings

theorem evolved (h : SameNodes t t') (hc : t.Consistent) : Evolved t t' :=
  (Evolved.refl hc).congr h.nodes (h.tidy hc).consistent

theorem references (h : SameNodes t t') (hc : t.Consistent) (v : VariableId) : t'.references v = t.references v := by
  obtain ⟨hle, hlt⟩ := (h.evolved hc).references_lt_iff (h.tidy hc) v
  refine Nat.le_antisymm hle (Nat.not_lt.1 fun hfewer => ?_)
  obtain ⟨x, ⟨-, n, hn, -⟩, hgone⟩ := hlt.1 hfewer
  rw [get?, h.nodes] at hgone
  cases hn.symm.trans hgone

end SameNodes

end Specializer.Tree
