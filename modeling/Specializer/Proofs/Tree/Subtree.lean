import Specializer.Proofs.Tree.Walk

/-!
# Subtrees that stay the same

What is done to a tree often leaves the part below some node as it was, but for the link of that node to its parent
(`SameBelow`). Then the walk from it, and what is known about evaluating it, are the same too.

The bound of a walk is the size of the arena, which grows. In a consistent tree that does not matter: every level of the
tree below a node is seen with any bound that is large enough (`Consistent.walkUpTo_of_le`), so a walk visits a node and
then, one after the other, what the walks from its children visit (`Consistent.walk_eq`).
-/

namespace Specializer.Tree

variable {t t' : Tree} {id x : NodeId} {n : Node} {fuel : Nat}

/-! ## Walks -/

namespace Consistent

/-- A bound that reaches the deepest level is large enough. -/
theorem walkUpTo_succ (h : t.Consistent) (hid : t.get? id = some n) (hfuel : t.nodes.size ≤ t.depth id + fuel) :
    t.walkUpTo (fuel + 1) id = t.walkUpTo fuel id := by
  induction fuel generalizing id n with
  | zero =>
    have := h.depth_lt_size hid
    omega
  | succ fuel ih =>
    have hchildren : n.children.mapM (t.walkUpTo (fuel + 1)) = n.children.mapM (t.walkUpTo fuel) := by
      refine mapM_congr fun c hc => ?_
      obtain ⟨m, hm, -⟩ := h.held hid hc
      refine ih hm ?_
      rw [h.depth_of_parent ((h.isParent_iff hid).2 hc)]
      omega
    rw [walkUpTo, walkUpTo, node_of_get? hid, ok_bind, ok_bind, hchildren]

theorem walkUpTo_of_le (h : t.Consistent) (hid : t.get? id = some n) (hfuel : t.nodes.size ≤ t.depth id + fuel) :
    t.walkUpTo fuel id = t.walk id := by
  have key (k : Nat) : t.walkUpTo (t.nodes.size - t.depth id + k) id = t.walkUpTo (t.nodes.size - t.depth id) id := by
    induction k with
    | zero => rfl
    | succ k ih => rw [← Nat.add_assoc, h.walkUpTo_succ hid (by omega), ih]
  obtain ⟨k, rfl⟩ : ∃ k, fuel = t.nodes.size - t.depth id + k := Nat.exists_eq_add_of_le (by omega)
  obtain ⟨k', hk'⟩ : ∃ k', t.nodes.size + 1 = t.nodes.size - t.depth id + k' := Nat.exists_eq_add_of_le (by omega)
  rw [walk, hk', key, key]

/-- **A walk visits a node, and then what the walks from its children visit.** -/
theorem walk_eq (h : t.Consistent) (hid : t.get? id = some n) :
    t.walk id = (n.children.mapM t.walk).map fun below => id :: below.flatten := by
  have hchildren : n.children.mapM (t.walkUpTo t.nodes.size) = n.children.mapM t.walk := by
    refine mapM_congr fun c hc => ?_
    obtain ⟨m, hm, -⟩ := h.held hid hc
    exact h.walkUpTo_of_le hm (by omega)
  rw [walk, walkUpTo, node_of_get? hid, ok_bind, hchildren]
  cases n.children.mapM t.walk <;> rfl

theorem walk_cons (h : t.Consistent) (hid : t.get? id = some n) : ∃ below, n.children.mapM t.walk = .ok below ∧
    t.walk id = .ok (id :: below.flatten) ∧ ∀ x ∈ below.flatten, t.StrictlyBelow x id := by
  obtain ⟨below, hbelow, hback, -⟩ := mapM_ok (f := t.walk) (l := n.children) fun c hc => by
    obtain ⟨m, hm, -⟩ := h.held hid hc
    exact h.walk_ok hm
  refine ⟨below, hbelow, by rw [h.walk_eq hid, hbelow]; rfl, fun x hx => ?_⟩
  obtain ⟨ids, hids, hx⟩ := List.mem_flatten.1 hx
  obtain ⟨c, hc, hmem⟩ := hback ids hids
  exact .tail' ((hmem x).1 hx) ((h.isParent_iff hid).2 hc)

end Consistent

/-- Walks see only children. -/
theorem walkUpTo_congr (h : t.Consistent)
    (hsame : ∀ x n, t.Below x id → t.get? x = some n → ∃ n', t'.get? x = some n' ∧ n'.children = n.children)
    (hid : t.get? id = some n) : t'.walkUpTo fuel id = t.walkUpTo fuel id := by
  induction fuel generalizing id n with
  | zero => rfl
  | succ fuel ih =>
    obtain ⟨n', hn', hchildren⟩ := hsame id n .refl hid
    have hbelow : n.children.mapM (t'.walkUpTo fuel) = n.children.mapM (t.walkUpTo fuel) := by
      refine mapM_congr fun c hc => ?_
      obtain ⟨m, hm, -⟩ := h.held hid hc
      exact ih (fun x m hx => hsame x m (hx.tail ((h.isParent_iff hid).2 hc))) hm
    rw [walkUpTo, walkUpTo, node_of_get? hid, node_of_get? hn', ok_bind, ok_bind, hchildren, hbelow]

theorem walk_congr (h : t.Consistent) (hsize : t.nodes.size ≤ t'.nodes.size)
    (hsame : ∀ x n, t.Below x id → t.get? x = some n → ∃ n', t'.get? x = some n' ∧ n'.children = n.children)
    (hid : t.get? id = some n) : t'.walk id = t.walk id := by
  rw [walk, walkUpTo_congr h hsame hid, h.walkUpTo_of_le hid (by omega)]

/-! ## The same subtree -/

/-- Everything below a node is as it was; the node itself may hang somewhere else. -/
structure SameBelow (t t' : Tree) (id : NodeId) : Prop where
  node : ∃ n p, t.get? id = some n ∧ t'.get? id = some { n with parent := p }
  below : ∀ x, t.StrictlyBelow x id → t'.get? x = t.get? x

theorem SameBelow.get? (h : SameBelow t t' id) (hx : t.Below x id) (hn : t.get? x = some n) :
    ∃ p, t'.get? x = some { n with parent := p } := by
  rcases Relation.reflTransGen_iff_eq_or_transGen.1 hx with rfl | hx
  · obtain ⟨n', p, hn', hsame⟩ := h.node
    obtain rfl := Option.some.inj (hn.symm.trans hn')
    exact ⟨p, hsame⟩
  · exact ⟨n.parent, (h.below x hx).trans hn⟩

/-- A subtree stays the same as long as its top is only moved and nothing below it is touched. -/
theorem SameBelow.later {t'' : Tree} (h : SameBelow t t' id)
    (hnode : ∀ m, t'.get? id = some m → ∃ p, t''.get? id = some { m with parent := p })
    (hbelow : ∀ x, t.StrictlyBelow x id → t''.get? x = t'.get? x) : SameBelow t t'' id := by
  obtain ⟨m, p, hm, hm'⟩ := h.node
  obtain ⟨p', hm''⟩ := hnode _ hm'
  exact ⟨⟨m, p', hm, hm''⟩, fun x hx => (hbelow x hx).trans (h.below x hx)⟩

theorem sameBelow_refl (hid : t.get? id = some n) : SameBelow t t id := ⟨⟨n, n.parent, hid, hid⟩, fun _ _ => rfl⟩

/-- The same nodes hang below. -/
theorem SameBelow.below_iff (h : SameBelow t t' id) (hc : t.Consistent) (hc' : t'.Consistent) :
    t'.Below x id ↔ t.Below x id := by
  obtain ⟨n, p, hn, -⟩ := h.node
  constructor
  · intro hb
    induction hb using Relation.ReflTransGen.head_induction_on with
    | refl => exact .refl
    | @head c q hcq hrest ih =>
      obtain ⟨m, hm⟩ := live_below ih ⟨n, hn⟩
      obtain ⟨p', hm'⟩ := h.get? ih hm
      exact .head ((hc.isParent_iff hm).2 ((hc'.isParent_iff hm').1 hcq)) ih
  · intro hb
    induction hb using Relation.ReflTransGen.head_induction_on with
    | refl => exact .refl
    | @head c q hcq hrest ih =>
      obtain ⟨m, hm, hmc⟩ := hc.parent_live hcq
      obtain ⟨p', hm'⟩ := h.get? hrest hm
      exact .head ((hc'.isParent_iff hm').2 hmc) ih

/-- What is known about evaluating a node does not depend on where it hangs. -/
theorem SameBelow.anyOperand (h : SameBelow t t' id) (hc : t.Consistent) (hsize : t'.nodes.size = t.nodes.size)
    {test : Node → Bool} (htest : ∀ n p, test { n with parent := p } = test n) :
    t'.anyOperand test id = t.anyOperand test id := by
  have key (fuel : Nat) {x : NodeId} {m : Node} (hx : t.Below x id) (hm : t.get? x = some m) :
      t'.anyOperandUpTo test fuel x = t.anyOperandUpTo test fuel x := by
    induction fuel generalizing x m with
    | zero => rfl
    | succ fuel ih =>
      obtain ⟨p, hm'⟩ := h.get? hx hm
      have hchildren : m.children.anyM (t'.anyOperandUpTo test fuel) = m.children.anyM (t.anyOperandUpTo test fuel) := by
        refine anyM_congr fun c hmc => ?_
        obtain ⟨mc, hmc', -⟩ := hc.held hm hmc
        exact ih (.head ((hc.isParent_iff hm).2 hmc) hx) hmc'
      simp only [anyOperandUpTo, node_of_get? hm, node_of_get? hm', ok_bind, htest]
      split
      · rfl
      split
      · rfl
      exact hchildren
  obtain ⟨n, p, hn, -⟩ := h.node
  rw [Tree.anyOperand, Tree.anyOperand, hsize]
  exact key _ .refl hn

theorem SameBelow.isObservable (h : SameBelow t t' id) (hc : t.Consistent) (hsize : t'.nodes.size = t.nodes.size) :
    t'.isObservable id = t.isObservable id := by
  rw [Tree.isObservable, Tree.isObservable, mayHaveSideEffects, mayHaveSideEffects, mayRaise, mayRaise,
    h.anyOperand hc hsize fun _ _ => rfl, h.anyOperand hc hsize fun _ _ => rfl]

end Specializer.Tree
