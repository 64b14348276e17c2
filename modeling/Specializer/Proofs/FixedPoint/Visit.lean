import Specializer.Proofs.Replacement.Computing

/-!
# Walking a unit

A walk goes down from the unit, lets the visitors look at each node, and computes the node on the way back up. What it
finds on its way may be replaced or moved behind its back, so it only goes on with children that are still where they
were. The levels of a plan bound how far down it can get: nothing that is put in the place of a node is higher than it
was, and its children are lower.
-/

namespace Specializer.Plan

open Specializer.Tree ReplaceM

variable {located : ModuleName → Prop} {s : Settings} {P : Plan} {w w' : Workspace} {id id' parent : NodeId}

/-! ## One node -/

/-- What is done next to the node in the place of another settles that one too. -/
theorem Settled.next {x : ReplaceM NodeId} (hf : P.Fits located w.tree none)
    (h : Settled located P w id parent id' w')
    (hx : ∀ P', P'.Fits located w'.tree none → Placed w'.tree id' parent → P'.level id' ≤ P.level id →
      Ensures located s x w' (Settled located P' w' id' parent)) :
    Ensures located s x w' (Settled located P w id parent) := by
  obtain ⟨P', hadvance, hplaced, hlevel⟩ := h
  refine (hx P' hadvance.fits hplaced hlevel).mono ?_
  rintro id'' w'' ⟨P'', hadvance', hplaced', hlevel'⟩
  exact ⟨P'', hadvance.trans hf (hadvance'.mono (by omega)), hplaced', by omega⟩

theorem foldlM_enter_ensures (hknows : Knows located s) : ∀ {visitors : List Visitor} {id' : NodeId} {w' : Workspace},
    P.Fits located w.tree none → Settled located P w id parent id' w' →
    Ensures located s (visitors.foldlM (fun current visitor => visitor.enter current) id') w'
      (Settled located P w id parent)
  | [], _, _, _, h => .ret h
  | visitor :: visitors, _, _, hf, h => by
    rw [List.foldlM_cons]
    refine (h.next hf fun P' hf' hplaced _ => enter_ensures hf' hplaced hknows visitor).bind fun id'' w'' h' => ?_
    exact foldlM_enter_ensures hknows hf h'

theorem enterNode_ensures (h : P.Fits located w.tree none) (hplaced : Placed w.tree id parent)
    (hknows : Knows located s) : Ensures located s (enterNode id) w (Settled located P w id parent) :=
  .bind_ok settings_ok (foldlM_enter_ensures hknows h (.refl h hplaced))

/-! ## Children -/

/-- What visiting below a node does: everything from its level up is in its place. -/
def Visited (located : ModuleName → Prop) (P : Plan) (w : Workspace) (id : NodeId) (w' : Workspace) : Prop :=
  ∃ P', Advance located (P.level id) P w P' w'

/-- A node stays where it is while its children are visited. -/
theorem Advance.placed {P' : Plan} (hf : P.Fits located w.tree none) (h : Advance located (P.level id) P w P' w')
    (hplaced : Placed w.tree id parent) : Placed w'.tree id parent ∧ P'.level id = P.level id := by
  obtain ⟨n, hn, hp⟩ := parent?_eq_some_iff.1 hplaced.held
  obtain ⟨⟨slots, hslots⟩, hlevel, -⟩ := h.keeps.node hn hplaced.reachable (Nat.le_refl _)
  obtain ⟨_, -, hu⟩ := hf.under hplaced.held (hf.known_of_reachable hplaced.reach)
  exact ⟨⟨parent?_eq_some_iff.2 ⟨_, hslots, hp⟩, h.keeps.reachable hf hplaced.reach (Nat.le_of_lt hu.level)⟩, hlevel⟩

/-- The children of a node are visited one after the other, as long as each visit keeps what is above the child. -/
theorem visitChildren_ensures {visit : NodeId → ReplaceM Unit} {fuel : Nat}
    (hvisit : ∀ {P w child}, P.Fits located w.tree none → Placed w.tree child parent → P.level child < fuel →
      Ensures located s (visit child) w fun _ w' => ∃ P', Advance located (P.level child + 1) P w P' w')
    (inSequence : Bool) : ∀ {children : List NodeId} {P : Plan} {w : Workspace}, P.Fits located w.tree none →
    w.tree.Reachable parent → P.level parent ≤ fuel →
    Ensures located s (visitChildren visit parent inSequence children) w fun _ w' => Visited located P w parent w'
  | [], P, w, h, _, _ => .ret ⟨P, .refl _ h⟩
  | child :: rest, P, w, h, hreach, hfuel => by
    refine .bind_ok (show (get : ReplaceM Workspace) s w = .ok w w from rfl) ?_
    split
    · exact .ret ⟨P, .refl _ h⟩
    refine .bind_ok tree_ok ?_
    split
    · next hp =>
      obtain ⟨n, hn, hu⟩ := h.under hp (h.known_of_reachable hreach)
      have hlower := hu.level
      refine (hvisit h ⟨hp, hreach⟩ (by omega)).bind ?_
      rintro - w₁ ⟨P₁, hadvance⟩
      -- whatever the visit did below, the parent is where it was
      replace hadvance := hadvance.mono hlower
      obtain ⟨-, hlevel, -⟩ := hadvance.keeps.node hn hreach (Nat.le_refl _)
      refine (visitChildren_ensures hvisit inSequence hadvance.fits
        (hadvance.keeps.reachable h hreach (Nat.le_refl _)) (hlevel ▸ hfuel)).mono ?_
      rintro - w₂ ⟨P₂, hadvance₂⟩
      exact ⟨P₂, hadvance.trans h (hlevel ▸ hadvance₂)⟩
    · exact visitChildren_ensures hvisit inSequence h hreach hfuel

/-! ## The walk -/

/-- **A visit of a node settles it**, and a visit of the unit keeps the unit and all that is above. -/
theorem visit_ensures (hknows : Knows located s) (unit : NodeId) : ∀ {fuel : Nat} {P : Plan} {w : Workspace} {id : NodeId},
    P.Fits located w.tree none → w.tree.Reachable id → P.level id < fuel →
    (id = unit → Ensures located s (visit unit fuel id) w fun _ => Visited located P w id) ∧
      (id ≠ unit → ∀ {parent}, Placed w.tree id parent →
        Ensures located s (visit unit fuel id) w (Settled located P w id parent))
  | 0, _, _, _, _, _, hfuel => absurd hfuel (Nat.not_lt_zero _)
  | fuel + 1, P, w, id, h, hreach, hfuel => by
    -- below any node the walk goes on with less fuel
    have hbelow {P : Plan} {w : Workspace} {current : NodeId} (inSequence : Bool) (children : List NodeId)
        (h : P.Fits located w.tree none) (hreach : w.tree.Reachable current) (hfuel : P.level current ≤ fuel) :
        Ensures located s (visitChildren (fun child => discard (visit unit fuel child)) current inSequence children) w
          fun _ => Visited located P w current := by
      refine visitChildren_ensures (fun {P w child} h hplaced hlevel => ?_) inSequence h hreach hfuel
      obtain ⟨hunit, hother⟩ := visit_ensures hknows unit h hplaced.reachable hlevel
      refine .discarded ?_
      by_cases hchild : child = unit
      · refine (hunit hchild).mono ?_
        rintro - w' ⟨P', hadvance⟩
        exact ⟨P', hadvance.mono (Nat.le_succ _)⟩
      · refine (hother hchild hplaced).mono ?_
        rintro - w' ⟨P', hadvance, -, -⟩
        exact ⟨P', hadvance⟩
    refine ⟨fun hid => ?_, fun hid parent hplaced => ?_⟩
    · subst hid
      obtain ⟨n, hn⟩ := h.built.consistent.live_of_reachable hreach
      rw [visit, if_pos rfl]
      refine .bind_ok pure_ok (.bind_ok (ask_ok (node_of_get? hn)) ?_)
      rw [if_neg (by simp)]
      refine (hbelow _ n.children h hreach (by omega)).bind fun _ w' hvisited => ?_
      rw [if_pos rfl]
      exact .ret hvisited
    · rw [visit, if_neg hid]
      refine (enterNode_ensures h hplaced hknows).bind fun current w₁ hsettled => ?_
      refine hsettled.next h fun P₁ h₁ hplaced₁ hlevel₁ => ?_
      obtain ⟨n, hn⟩ := hplaced₁.live
      refine .bind_ok (ask_ok (node_of_get? hn)) ?_
      split
      · exact .ret (.refl h₁ hplaced₁)
      refine (hbelow _ n.children h₁ hplaced₁.reachable (by omega)).bind ?_
      rintro - w₂ ⟨P₂, hadvance⟩
      obtain ⟨hplaced₂, hlevel₂⟩ := hadvance.placed h₁ hplaced₁
      have hvisited : Settled located P₁ w₁ current parent current w₂ :=
        ⟨P₂, hadvance.mono (Nat.le_succ _), hplaced₂, Nat.le_of_eq hlevel₂⟩
      split
      · exact .ret hvisited
      refine hvisited.next h₁ fun P₃ h₃ hplaced₃ _ => ?_
      exact (computeNode_ensures h₃ hplaced₃ hknows).bind fun _ _ hoffer => hoffer.applyComputed

/-- **A walk of a unit keeps the tree in order**, and everything it announces is paid for. -/
theorem visitUnit_ensures {credit : NodeId → Nat} {unit : NodeId} (h : w.tree.Orderly located credit)
    (hunit : w.tree.Reachable unit) (hknows : Knows located s) :
    Ensures located s (visitUnit unit) w fun _ w' => ∃ credit', w'.tree.Orderly located credit' ∧
      w.changes.size ≤ w'.changes.size ∧
      w'.changes.size + w'.tree.weight credit' ≤ w.changes.size + w.tree.weight credit ∧
      w'.tree.root = w.tree.root ∧
      ∀ r n, w.tree.root = some r → w.tree.get? r = some n → ∃ slots, w'.tree.get? r = some { n with slots } := by
  have hfits := fits_ofTree h
  have hlevel : (ofTree w.tree credit).level unit < depthBound w.tree := by
    have := level_ofTree_le w.tree credit unit
    unfold depthBound
    omega
  refine .bind_ok tree_ok (((visit_ensures hknows unit hfits hunit hlevel).1 rfl).bind ?_)
  rintro - w' ⟨P', hadvance⟩
  refine .ret ⟨P'.credit, hadvance.fits.orderly, hadvance.grows, hadvance.budget, hadvance.keeps.root, fun r n hr hn => ?_⟩
  obtain ⟨r', hr', hb⟩ := hunit
  obtain rfl : r' = r := Option.some.inj (hr'.symm.trans hr)
  have hroot : w.tree.Reachable r' := ⟨r', hr, .refl⟩
  exact (hadvance.keeps.node hn hroot (hfits.known_of_below hroot hb).2).1

end Specializer.Plan
