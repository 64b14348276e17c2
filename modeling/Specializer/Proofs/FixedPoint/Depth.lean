import Specializer.Proofs.FixedPoint.Tour
import Specializer.Proofs.FixedPoint.Visit

/-!
# How deep a walk may go

A walk of a unit is given up when it gets deeper than its number of levels. That is all the number decides: a walk that is
not given up has the same outcome with more levels, whatever the tree (`visit_sameUnlessTooDeep`). The walks of a tree in
order are never given up, so for them any number from `depthBound` on is as good as another (`visit_eq_of_depthBound_le`).
-/

namespace Specializer

namespace ReplaceM

/-- Both computations have the same outcome, unless the first one is given up because the tree is too deep. -/
def SameUnlessTooDeep {α : Type} (x y : ReplaceM α) : Prop :=
  ∀ s w, x s w = y s w ∨ ∃ w', x s w = .error (.internal "the tree is nested too deeply") w'

namespace SameUnlessTooDeep

variable {α β : Type} {x x' y y' : ReplaceM α} {f g : α → ReplaceM β}

theorem refl (x : ReplaceM α) : SameUnlessTooDeep x x := fun _ _ => .inl rfl

theorem bind (hx : SameUnlessTooDeep x y) (hf : ∀ a, SameUnlessTooDeep (f a) (g a)) :
    SameUnlessTooDeep (x >>= f) (y >>= g) := by
  intro s w
  rcases hx s w with hsame | ⟨w', hdeep⟩
  · cases hy : y s w with
    | ok a w₁ =>
      rw [reads_bind_of_ok (hsame.trans hy), reads_bind_of_ok hy]
      exact hf a s w₁
    | error e w₁ =>
      rw [reads_bind_of_error (hsame.trans hy), reads_bind_of_error hy]
      exact .inl rfl
  · exact .inr ⟨w', reads_bind_of_error hdeep⟩

theorem discarded (hx : SameUnlessTooDeep x y) : SameUnlessTooDeep (discard x) (discard y) :=
  hx.bind fun _ => .refl (pure ())

theorem ite {p : Prop} [Decidable p] (hx : SameUnlessTooDeep x y) (hx' : SameUnlessTooDeep x' y') :
    SameUnlessTooDeep (if p then x else x') (if p then y else y') := by
  split
  · exact hx
  · exact hx'

end SameUnlessTooDeep

theorem visitChildren_sameUnlessTooDeep {visit visit' : NodeId → ReplaceM Unit}
    (hvisit : ∀ child, SameUnlessTooDeep (visit child) (visit' child)) (parent : NodeId) (inSequence : Bool) :
    ∀ children : List NodeId, SameUnlessTooDeep (visitChildren visit parent inSequence children)
      (visitChildren visit' parent inSequence children)
  | [] => .refl _
  | child :: rest => by
    have hrest := visitChildren_sameUnlessTooDeep hvisit parent inSequence rest
    refine .bind (.refl get) fun w => .ite (.refl _) (.bind (.refl tree) fun t => .ite ?_ hrest)
    exact (hvisit child).bind fun _ => hrest

theorem visitEntered_sameUnlessTooDeep {unit : NodeId} {fuel fuel' : Nat}
    (hvisit : ∀ child, SameUnlessTooDeep (visit unit fuel child) (visit unit fuel' child)) (current : NodeId) :
    SameUnlessTooDeep (visitEntered unit fuel current) (visitEntered unit fuel' current) := by
  refine .bind (.refl _) fun n => .ite (.refl _) ?_
  have hchildren := visitChildren_sameUnlessTooDeep (fun child => (hvisit child).discarded) current
    (n.kind = .statementsSequence) n.children
  exact .bind hchildren fun _ => .refl _

/-- **The number of levels does not matter for what a walk does**, only for whether it is given up: with more levels its
outcome is the same, be it a success or another error. -/
theorem visit_sameUnlessTooDeep (unit : NodeId) : ∀ {fuel fuel' : Nat}, fuel ≤ fuel' → ∀ id,
    SameUnlessTooDeep (visit unit fuel id) (visit unit fuel' id)
  | 0, _, _, _ => fun _ w => .inr ⟨w, rfl⟩
  | fuel + 1, 0, hle, _ => absurd hle (Nat.not_succ_le_zero fuel)
  | fuel + 1, fuel' + 1, hle, id => by
    have hentered := visitEntered_sameUnlessTooDeep (visit_sameUnlessTooDeep unit (Nat.le_of_succ_le_succ hle))
    rw [visit_succ, visit_succ]
    exact .ite (hentered id) (.bind (.refl _) hentered)

end ReplaceM

namespace Plan

open ReplaceM

/-- **A tree in order is never too deep for its walks.** -/
theorem visit_eq_of_depthBound_le {located : ModuleName → Prop} {s : Settings} {w : Workspace} {credit : NodeId → Nat}
    {unit : NodeId} {fuel : Nat} (h : w.tree.Orderly located credit) (hunit : w.tree.Reachable unit)
    (hknows : Knows located s) (hplaced : ¬ s.Misplaced located) (hfuel : depthBound w.tree ≤ fuel) :
    visit unit fuel unit s w = visit unit (depthBound w.tree) unit s w := by
  rcases visit_sameUnlessTooDeep unit hfuel unit s w with hsame | ⟨w', hdeep⟩
  · exact hsame.symm
  · -- the walk of the unit would fail, and in a tree in order only a misplaced module makes it fail
    have hrun : visitUnit unit s w = .error (.internal "the tree is nested too deeply") w' :=
      (reads_bind_of_ok tree_ok).trans (reads_bind_of_error hdeep)
    have hensured := visitUnit_ensures h hunit hknows
    rw [Ensures, hrun] at hensured
    exact absurd hensured hplaced

end Plan

end Specializer
