import Specializer.Proofs.Tree.Narrowing

/-!
# What is evaluated with a node

Evaluating a node evaluates its operands and theirs. What the body of a function or a module holds is not evaluated where
it stands (`Evaluates`). The search for an operand that passes a test is bounded by the size of the arena, but in a
consistent tree the bound is never met: the answer is yes exactly if some node that is evaluated passes the test
(`Consistent.anyOperand_eq_ok_iff`).
-/

namespace Specializer.Tree

variable {t : Tree} {id x : NodeId} {n m : Node} {test : Node → Bool} {fuel : Nat}

/-- The second node is an operand of the first, and is evaluated where the first stands. -/
structure Feeds (t : Tree) (id operand : NodeId) : Prop where
  held : t.IsParent operand id
  notFunction : t.kind id ≠ .ok .functionBody
  notModule : t.kind id ≠ .ok .module

/-- Evaluating the first node evaluates the second. -/
abbrev Evaluates (t : Tree) : NodeId → NodeId → Prop := Relation.ReflTransGen t.Feeds

namespace Consistent

theorem feeds_iff (h : t.Consistent) (hid : t.get? id = some n) :
    t.Feeds id x ↔ x ∈ n.children ∧ ¬ (n.kind = .functionBody ∨ n.kind = .module) := by
  have hkind {kind : NodeKind} : t.kind id = .ok kind ↔ n.kind = kind := by simp [kind_eq_ok_iff, hid]
  rw [← h.isParent_iff hid, not_or]
  exact ⟨fun hf => ⟨hf.held, mt hkind.2 hf.notFunction, mt hkind.2 hf.notModule⟩,
    fun ⟨hx, hfunction, hmodule⟩ => ⟨hx, mt hkind.1 hfunction, mt hkind.1 hmodule⟩⟩

/-- The search with a bound that reaches the deepest level finds nothing exactly if there is nothing to be found. -/
theorem anyOperandUpTo_eq_false_iff (h : t.Consistent) (hid : t.get? id = some n)
    (hfuel : t.nodes.size ≤ t.depth id + fuel) :
    t.anyOperandUpTo test fuel id = .ok false ↔ ∀ x m, t.Evaluates id x → t.get? x = some m → test m = false := by
  induction fuel generalizing id n with
  | zero =>
    have := h.depth_lt_size hid
    omega
  | succ fuel ih =>
    have hchild {c : NodeId} (hc : c ∈ n.children) : t.anyOperandUpTo test fuel c = .ok false ↔
        ∀ x m, t.Evaluates c x → t.get? x = some m → test m = false := by
      obtain ⟨k, hk, -⟩ := h.held hid hc
      refine ih hk ?_
      rw [h.depth_of_parent ((h.isParent_iff hid).2 hc)]
      omega
    rw [anyOperandUpTo_succ_eq_false_iff]
    constructor
    · rintro ⟨n', hn', htest, hbelow⟩ x m hx hm
      obtain rfl : n = n' := Option.some.inj (hid.symm.trans hn')
      rcases Relation.ReflTransGen.cases_head hx with rfl | ⟨c, hc, hcx⟩
      · obtain rfl : n = m := Option.some.inj (hid.symm.trans hm)
        exact htest
      · obtain ⟨hmem, hopen⟩ := (h.feeds_iff hid).1 hc
        exact (hchild hmem).1 (hbelow.resolve_left hopen c hmem) x m hcx hm
    · intro hall
      refine ⟨n, hid, hall id n .refl hid, or_iff_not_imp_left.2 fun hopen c hc => (hchild hc).2 fun x m hx => ?_⟩
      exact hall x m (.head ((h.feeds_iff hid).2 ⟨hc, hopen⟩) hx)

/-- **The answer to a question about operands** is yes exactly if a node that is evaluated passes the test. -/
theorem anyOperand_eq_ok_iff (h : t.Consistent) (hid : t.get? id = some n) {b : Bool} :
    t.anyOperand test id = .ok b ↔ (b = true ↔ ∃ x m, t.Evaluates id x ∧ t.get? x = some m ∧ test m = true) := by
  have hnone : t.anyOperand test id = .ok false ↔ ¬ ∃ x m, t.Evaluates id x ∧ t.get? x = some m ∧ test m = true := by
    rw [anyOperand, h.anyOperandUpTo_eq_false_iff hid (by omega)]
    simp only [not_exists, not_and, Bool.not_eq_true]
  obtain ⟨answer, hanswer⟩ := h.anyOperand_ok test hid
  rw [hanswer, Except.ok.injEq] at hnone ⊢
  generalize (∃ x m, t.Evaluates id x ∧ t.get? x = some m ∧ test m = true) = passes at hnone ⊢
  cases answer <;> cases b <;> simp_all

end Consistent

end Specializer.Tree
