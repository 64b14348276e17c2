import Specializer.Proofs.Replacement.CallSite
import Specializer.Proofs.Tree.Inversion
import Specializer.Proofs.Tree.Operands
import Specializer.Proofs.Tree.Operation
import Specializer.Proofs.Tree.Subtree
import Specializer.Replacement.Compute

/-!
# What is left of side effects

An effect is dropped if evaluating it neither has side effects nor may raise (`Unnoticed`). Effects are dropped one after
the other: each is taken out of its slot and torn down, so that the slot shrinks on the way. `Discarded` says what that
leaves, whatever else hangs below the same node, and composes (`Discarded.trans`). When no effect remains the expression
is taken out as well, and is all that is left (`Consistent.computeSideEffects_keeps`).
-/

namespace Specializer

namespace Slot

/-- The slot without some nodes. -/
def withoutAll (ids : List NodeId) : Slot → Slot
  | .one child => .one (child.filter (· ∉ ids))
  | .many children => .many (children.filter (· ∉ ids))

variable {s : Slot} {id : NodeId} {ids ids' : List NodeId}

@[simp] theorem withoutAll_nil : s.withoutAll [] = s := by
  rcases s with (_ | c) | cs <;> simp [withoutAll, Option.filter]

theorem withoutAll_singleton : s.withoutAll [id] = s.without id := by
  cases s <;> simp [withoutAll, without]

theorem withoutAll_withoutAll : (s.withoutAll ids).withoutAll ids' = s.withoutAll (ids ++ ids') := by
  have hboth {p q : NodeId → Bool} (child : Option NodeId) :
      (child.filter p).filter q = child.filter fun c => p c && q c := by
    cases child with
    | none => rfl
    | some c => cases h : p c <;> simp [Option.filter, h]
  cases s <;> simp [withoutAll, hboth, List.filter_filter, Bool.and_comm]

end Slot

namespace Tree

variable {t t' t'' : Tree} {id c parent expression x : NodeId} {n : Node} {dropped kept effects : List NodeId}

/-! ## Effects that cannot be noticed -/

/-- Evaluating the node neither has side effects nor may raise. -/
def Unnoticed (t : Tree) (id : NodeId) : Prop := t.mayHaveSideEffects id = .ok false ∧ t.mayRaise id = .ok false

instance (t : Tree) (id : NodeId) : Decidable (t.Unnoticed id) := inferInstanceAs (Decidable (_ ∧ _))

theorem unnoticed_iff : t.Unnoticed id ↔ t.isObservable id = .ok false := by
  rw [Unnoticed, isObservable, bind_eq_ok_iff]
  constructor
  · rintro ⟨heffects, hraise⟩
    exact ⟨false, heffects, hraise⟩
  · rintro ⟨b, heffects, hrest⟩
    cases b with
    | true => cases hrest
    | false => exact ⟨heffects, hrest⟩

theorem Consistent.not_unnoticed_iff (h : t.Consistent) (hid : t.get? id = some n) :
    ¬ t.Unnoticed id ↔ t.isObservable id = .ok true := by
  obtain ⟨b, hb⟩ := h.isObservable_ok hid
  rw [unnoticed_iff, hb]
  cases b <;> simp

/-- The test of all effects changes nothing. -/
theorem Consistent.filterM_isObservable (h : t.Consistent) (hlive : ∀ c ∈ effects, ∃ m, t.get? c = some m) :
    (effects.filterM fun effect => do return !(← TreeM.ofExcept (t.isObservable effect))) t =
      .ok (effects.filter (t.Unnoticed ·)) t := by
  refine run_filterM_of_ok fun effect heffect => ?_
  obtain ⟨m, hm⟩ := hlive effect heffect
  obtain ⟨b, hb⟩ := h.isObservable_ok hm
  have hdrops : decide (t.Unnoticed effect) = !b := by cases b <;> simp [unnoticed_iff, hb]
  rw [run_check_ok hb, hdrops]
  rfl

/-! ## Nodes that were taken out and torn down -/

/-- The nodes `dropped` were taken out from below `parent` and torn down; nothing else is different. -/
structure Discarded (t t' : Tree) (parent : NodeId) (dropped : List NodeId) : Prop where
  consistent : t'.Consistent
  root : t'.root = t.root
  bindings : t'.bindings = t.bindings
  size : t'.nodes.size = t.nodes.size
  gone : ∀ {c x}, c ∈ dropped → t.Below x c → t'.get? x = none
  node : ∀ {x}, (∀ c ∈ dropped, ¬ t.Below x c) → t'.get? x = (t.get? x).map fun n =>
    { n with slots := if x = parent then n.slots.map (Slot.withoutAll dropped) else n.slots }

namespace Discarded

theorem refl (h : t.Consistent) (parent : NodeId) : Discarded t t parent [] :=
  ⟨h, rfl, rfl, rfl, nofun, fun {x} _ => by
    have hslots : Slot.withoutAll [] = id := funext fun s => Slot.withoutAll_nil
    cases t.get? x <;> simp [hslots]⟩

theorem get?_eq_some (hd : Discarded t t' parent dropped) {m' : Node} (hx : t'.get? x = some m') :
    (∀ c ∈ dropped, ¬ t.Below x c) ∧ ∃ m, t.get? x = some m ∧
      m' = { m with slots := if x = parent then m.slots.map (Slot.withoutAll dropped) else m.slots } := by
  have hout : ∀ c ∈ dropped, ¬ t.Below x c := fun c hc hb => by
    rw [hd.gone hc hb] at hx
    cases hx
  rw [hd.node hout] at hx
  obtain ⟨m, hm, rfl⟩ := Option.map_eq_some_iff.1 hx
  exact ⟨hout, m, hm, rfl⟩

/-- What hangs below another child of the same node is as it was. -/
theorem below_other (hd : Discarded t t' parent dropped) (h : t.Consistent)
    (hdropped : ∀ a ∈ dropped, t.IsParent a parent) (hc : t.IsParent c parent) (hnot : c ∉ dropped) (hx : t.Below x c) :
    t'.get? x = t.get? x := by
  have hxp : x ≠ parent := by
    rintro rfl
    exact h.acyclic x (.tail' hx hc)
  have hapart : ∀ a ∈ dropped, ¬ t.Below x a := fun a ha hxa =>
    hnot (h.below_unique hc (hdropped a ha) hx hxa ▸ ha)
  rw [hd.node hapart]
  cases t.get? x <;> simp [hxp]

theorem below_iff (hd : Discarded t t' parent dropped) (h : t.Consistent)
    (hdropped : ∀ a ∈ dropped, t.IsParent a parent) (hc : t.IsParent c parent) (hnot : c ∉ dropped) :
    t'.Below x c ↔ t.Below x c := by
  have hsame {y : NodeId} (hy : t.Below y c) : t'.get? y = t.get? y := hd.below_other h hdropped hc hnot hy
  obtain ⟨m, hm, -⟩ := parent?_eq_some_iff.1 hc
  have hsub : SameBelow t t' c := ⟨⟨m, m.parent, hm, (hsame .refl).trans hm⟩, fun y hy => hsame hy.to_reflTransGen⟩
  exact hsub.below_iff h hd.consistent

/-- After one child others can be dropped. -/
theorem trans (h₁ : Discarded t t' parent [c]) (h₂ : Discarded t' t'' parent dropped) (h : t.Consistent)
    (hc : t.IsParent c parent) (hdropped : ∀ a ∈ dropped, t.IsParent a parent ∧ a ≠ c) :
    Discarded t t'' parent (c :: dropped) := by
  have hbelow {a x : NodeId} (ha : a ∈ dropped) : t'.Below x a ↔ t.Below x a :=
    h₁.below_iff h (by simpa using hc) (hdropped a ha).1 (by simpa using (hdropped a ha).2)
  have hlost {x : NodeId} (hx : t'.get? x = none) : t''.get? x = none := by
    by_cases hin : ∃ a ∈ dropped, t'.Below x a
    · obtain ⟨a, ha, hxa⟩ := hin
      exact h₂.gone ha hxa
    · rw [h₂.node fun a ha hxa => hin ⟨a, ha, hxa⟩, hx]
      rfl
  refine ⟨h₂.consistent, h₂.root.trans h₁.root, h₂.bindings.trans h₁.bindings, h₂.size.trans h₁.size, ?_, ?_⟩
  · intro a x ha hx
    rcases List.mem_cons.1 ha with rfl | ha
    · exact hlost (h₁.gone (by simp) hx)
    · exact h₂.gone ha ((hbelow ha).2 hx)
  · intro x hx
    rw [h₂.node fun a ha hxa => hx a (by simp [ha]) ((hbelow ha).1 hxa), h₁.node fun a ha => hx a (by simp_all)]
    cases t.get? x with
    | none => rfl
    | some n => by_cases hxp : x = parent <;> simp [hxp, Slot.withoutAll_withoutAll]

end Discarded

/-- One child can be taken out and torn down. -/
theorem Consistent.discard_ok (h : t.Consistent) (hc : t.IsParent c parent) : ∃ t₁ t', TreeM.detach c t = .ok c t₁ ∧
    TreeM.finalize c t₁ = .ok () t' ∧ Discarded t t' parent [c] := by
  obtain ⟨m, hm, -⟩ := parent?_eq_some_iff.1 hc
  obtain ⟨n, hn, -⟩ := h.parent_live hc
  obtain ⟨t₁, hdetach, hr⟩ := h.detach_ok hn hc
  have h₁ : t₁.Consistent := h.relinked hr (exchange_without hn hc)
  have hloose : t₁.Loose c := ⟨⟨_, by rw [hr.get?, hm]; rfl, by simp⟩, hr.root ▸ h.ne_root_of_parent? hc⟩
  obtain ⟨ids, hids, hfinalize⟩ := h₁.finalize_ok hloose
  -- what hangs below the child is what hung below it before it was taken out
  have hsame : SameBelow t t₁ c := by
    refine ⟨⟨m, none, hm, ?_⟩, fun x hx => ?_⟩
    · simp [hr.get?, hm, h.ne_of_isParent hc]
    · have hxc : x ≠ c := by
        rintro rfl
        exact h.acyclic x hx
      have hxp : x ≠ parent := by
        rintro rfl
        exact h.acyclic x (hx.tail hc)
      rw [hr.get?]
      cases t.get? x <;> simp [hxp, Ne.symm hxc]
  have hbelow {x : NodeId} : x ∈ ids ↔ t.Below x c := (hids x).trans (hsame.below_iff h h₁)
  refine ⟨t₁, _, hdetach, hfinalize, h₁.erase_below hloose hids, hr.root, hr.bindings, by simp [hr.size], ?_, ?_⟩
  · intro a x ha hx
    obtain rfl : a = c := by simpa using ha
    rw [get?_erase, if_pos (hbelow.2 hx)]
  · intro x hx
    have hxc : ¬ t.Below x c := hx c (by simp)
    have hne : c ≠ x := fun e => hxc (e ▸ .refl)
    rw [get?_erase, if_neg (mt hbelow.1 hxc), hr.get?]
    by_cases hxp : x = parent
    · subst hxp
      simp [hn, hne, Slot.withoutAll_singleton]
    · cases t.get? x <;> simp [hxp, hne]

/-- Children can be taken out and torn down one after the other. -/
theorem Consistent.discardAll_ok : ∀ {dropped : List NodeId} {t : Tree}, t.Consistent → dropped.Nodup →
    (∀ c ∈ dropped, t.IsParent c parent) → ∃ t', TreeM.discardAll dropped t = .ok () t' ∧ Discarded t t' parent dropped
  | [], t, h, _, _ => ⟨t, rfl, .refl h parent⟩
  | c :: rest, t, h, hnodup, hdropped => by
    obtain ⟨hfresh, hnodup⟩ := List.nodup_cons.1 hnodup
    have hc : t.IsParent c parent := hdropped c (by simp)
    have hrest : ∀ a ∈ rest, t.IsParent a parent ∧ a ≠ c := fun a ha =>
      ⟨hdropped a (by simp [ha]), fun e => hfresh (e ▸ ha)⟩
    obtain ⟨t₁, t₂, hdetach, hfinalize, hd⟩ := h.discard_ok hc
    have hheld : ∀ a ∈ rest, t₂.IsParent a parent := fun a ha => by
      obtain ⟨hp, hne⟩ := hrest a ha
      rw [IsParent, parent?, hd.below_other h (by simpa using hc) hp (by simpa using hne) .refl]
      exact hp
    obtain ⟨t₃, hrun, hd'⟩ := hd.consistent.discardAll_ok hnodup hheld
    refine ⟨t₃, ?_, hd.trans hd' h hc hrest⟩
    rw [TreeM.discardAll, run_bind_of_ok hdetach, run_bind_of_ok hfinalize]
    exact hrun

/-! ## The outcome -/

section Reading

variable (hn : t.get? id = some n) (hkind : n.kind = .sideEffects)
include hn hkind

theorem read_sideEffects {expression? : Option NodeId} (hslots : n.slots = [.many effects, .one expression?]) :
    t.childrenIn id "side_effects" = .ok effects ∧ t.child id "expression" = .ok expression? := by
  have heffects : t.slot id "side_effects" = .ok (.many effects) := slot_of_get? hn (by rw [hkind, hslots]; rfl)
  have hexpression : t.slot id "expression" = .ok (.one expression?) := slot_of_get? hn (by rw [hkind, hslots]; rfl)
  rw [childrenIn, child, heffects, hexpression]
  exact ⟨rfl, rfl⟩

/-- A node of side effects has one slot for them and one for the expression. -/
theorem Consistent.slots_sideEffects (h : t.Consistent) (hfilled : t.child id "expression" = .ok (some expression)) :
    ∃ effects, n.slots = [.many effects, .filled expression] := by
  have hforms := (h.conforms hn).forms
  have hlen : n.slots.length = 2 := by simpa [hkind, NodeKind.slots] using congrArg List.length hforms
  obtain ⟨first, second, hslots⟩ := List.length_eq_two.1 hlen
  rw [hslots, hkind] at hforms
  rcases first with _ | effects
  · cases hforms
  rcases second with expression? | _
  · cases (read_sideEffects hn hkind hslots).2.symm.trans hfilled
    exact ⟨effects, hslots⟩
  · cases hforms

end Reading

/-- Whether the expression is all that is left: effects were dropped, and none remain. -/
def OnlyExpression (dropped kept : List NodeId) : Prop := dropped ≠ [] ∧ kept = []

instance (dropped kept : List NodeId) : Decidable (OnlyExpression dropped kept) := inferInstanceAs (Decidable (_ ∧ _))

/-- What is left of the side effects of `id`, with `expression` computed after them: `dropped` are gone, and `kept` stand
in their old order. If `only` is set the expression was taken out as well. -/
structure Cleaned (t t' : Tree) (id expression : NodeId) (dropped kept : List NodeId) (only : Bool) : Prop where
  consistent : t'.Consistent
  root : t'.root = t.root
  bindings : t'.bindings = t.bindings
  size : t'.nodes.size = t.nodes.size
  gone : ∀ {c x}, c ∈ dropped → t.Below x c → t'.get? x = none
  keeps : ∀ {c x}, c ∈ kept → t.Below x c → t'.get? x = t.get? x
  holder : ∃ n, t.get? id = some n ∧
    t'.get? id = some { n with slots := [.many kept, .one (if only then none else some expression)] }
  offered : ∃ m, t.get? expression = some m ∧
    t'.get? expression = some { m with parent := if only then none else m.parent }
  other : ∀ {x}, x ≠ id → x ≠ expression → (∀ c ∈ dropped, ¬ t.Below x c) → t'.get? x = t.get? x

section Cleaning

variable (h : t.Consistent) (hn : t.get? id = some n) (hslots : n.slots = [.many effects, .filled expression])
include h hn hslots

/-- The node holds its effects and its expression, each of them once. -/
theorem Consistent.held_sideEffects : t.IsParent expression id ∧ expression ∉ effects ∧ effects.Nodup ∧
    ∀ c ∈ effects, t.IsParent c id := by
  have hchildren : n.children = effects ++ [expression] := by simp [Node.children, hslots, Slot.ids, Slot.filled]
  have hnodup := h.nodup_children hn
  rw [hchildren, List.nodup_append] at hnodup
  obtain ⟨heffects, -, hapart⟩ := hnodup
  refine ⟨(h.isParent_iff hn).2 (by simp [hchildren]), fun hmem => ?_, heffects, fun c hc => (h.isParent_iff hn).2 ?_⟩
  · exact hapart expression hmem expression (by simp) rfl
  · simp [hchildren, hc]

theorem Discarded.cleaned (hd : Discarded t t' id dropped) (hdropped : ∀ c ∈ dropped, c ∈ effects) :
    Cleaned t t' id expression dropped (effects.filter (· ∉ dropped)) false := by
  obtain ⟨hexpression, hnot, -, heffects⟩ := h.held_sideEffects hn hslots
  have hheld : ∀ c ∈ dropped, t.IsParent c id := fun c hc => heffects c (hdropped c hc)
  have hapart : ∀ c ∈ dropped, ¬ t.Below id c := fun c hc hb => h.acyclic id (.tail' hb (hheld c hc))
  have hstays : expression ∉ dropped := fun hmem => hnot (hdropped expression hmem)
  obtain ⟨m, hm, -⟩ := parent?_eq_some_iff.1 hexpression
  refine ⟨hd.consistent, hd.root, hd.bindings, hd.size, hd.gone, fun {c x} hc hx => ?_, ⟨n, hn, ?_⟩, ⟨m, hm, ?_⟩,
    fun {x} hx _ hxd => ?_⟩
  · obtain ⟨hc, hcd⟩ : c ∈ effects ∧ c ∉ dropped := by simpa using hc
    exact hd.below_other h hheld (heffects c hc) hcd hx
  · rw [hd.node hapart, hn]
    simp [hslots, Slot.withoutAll, Slot.filled, Option.filter, hstays]
  · rw [hd.below_other h hheld hexpression hstays .refl, hm]
    rfl
  · rw [hd.node hxd]
    cases t.get? x <;> simp [hx]

end Cleaning

/-- Without any effect left the expression can be taken out. -/
theorem Cleaned.release (hn : t.get? id = some n) (hkind : n.kind = .sideEffects) (hexpression : t.IsParent expression id)
    (hd : Cleaned t t' id expression dropped [] false) : ∃ t'', TreeM.detachSlot id "expression" t' = .ok (some expression) t'' ∧
      Cleaned t t'' id expression dropped [] true := by
  obtain ⟨n', hn', hget⟩ := hd.holder
  obtain rfl : n = n' := Option.some.inj (hn.symm.trans hn')
  obtain ⟨m, hm, hoffered⟩ := hd.offered
  have hp : t'.IsParent expression id := by
    rw [IsParent, parent?_of_get? hoffered, ← hexpression, parent?_of_get? hm]
    rfl
  have hne : expression ≠ id := hd.consistent.ne_of_isParent hp
  obtain ⟨t'', hdetach, hr⟩ := hd.consistent.detach_ok hget hp
  refine ⟨t'', ?_, hd.consistent.relinked hr (exchange_without hget hp), hr.root.trans hd.root,
    hr.bindings.trans hd.bindings, hr.size.trans hd.size, fun {c x} hc hx => ?_, fun hc => absurd hc List.not_mem_nil,
    ⟨n, hn, ?_⟩, ⟨m, hm, ?_⟩, fun {x} hx hxe hxd => ?_⟩
  · rw [detachSlot_of_child (read_sideEffects hget hkind rfl).2, run_map_of_ok hdetach]
  · rw [hr.get?, hd.gone hc hx]
    rfl
  · rw [hr.get?, hget]
    simp [hne, Slot.without, Option.filter]
  · rw [hr.get?, hoffered]
    simp [hne]
  · rw [hr.get?, hd.other hx hxe hxd]
    cases t.get? x <;> simp [hx, Ne.symm hxe]

/-- Computing the node drops the effects, and then the node itself if no effect is left. -/
theorem Consistent.clean_ok (h : t.Consistent) (hn : t.get? id = some n) (hkind : n.kind = .sideEffects)
    (hslots : n.slots = [.many effects, .filled expression]) (hdropped : effects.filter (t.Unnoticed ·) = dropped)
    (hkept : effects.filter (¬ t.Unnoticed ·) = kept) : ∃ c t', TreeM.computeSideEffects id t = .ok c t' ∧
      (c.isChanged = true ↔ dropped ≠ []) ∧ c.node = (if OnlyExpression dropped kept then expression else id) ∧
      Cleaned t t' id expression dropped kept (OnlyExpression dropped kept) := by
  obtain ⟨hexpression, -, hnodup, hheld⟩ := h.held_sideEffects hn hslots
  have hmem : ∀ c ∈ dropped, c ∈ effects := fun c hc => (List.mem_filter.1 (hdropped ▸ hc)).1
  have hlive : ∀ c ∈ effects, ∃ m, t.get? c = some m := fun c hc =>
    (parent?_eq_some_iff.1 (hheld c hc)).imp fun _ => And.left
  have hfilter := h.filterM_isObservable hlive
  have hrest : effects.filter (· ∉ dropped) = kept := by
    rw [← hkept, ← hdropped]
    exact List.filter_congr fun c hc => by simp [hc]
  rw [hdropped] at hfilter
  rw [TreeM.computeSideEffects, run_get_bind, run_check_ok (read_sideEffects hn hkind hslots).1, run_bind_of_ok hfilter]
  cases hlist : dropped with
  | nil =>
    subst hlist
    have hclean := (Discarded.refl h id).cleaned h hn hslots hmem
    rw [hrest] at hclean
    exact ⟨_, t, rfl, by simp [Computed.isChanged, Computed.unchanged], by simp [OnlyExpression, Computed.unchanged],
      by simpa [OnlyExpression] using hclean⟩
  | cons first others =>
    rw [← hlist]
    have hsome : dropped ≠ [] := by simp [hlist]
    obtain ⟨t₁, hdiscard, hd⟩ := h.discardAll_ok (hdropped ▸ hnodup.filter _) fun c hc => hheld c (hmem c hc)
    have hclean := hd.cleaned h hn hslots hmem
    rw [hrest] at hclean
    obtain ⟨n', hn', hget⟩ := hclean.holder
    obtain rfl : n = n' := Option.some.inj (hn.symm.trans hn')
    rw [if_neg (by simpa using hsome), run_bind_of_ok hdiscard,
      run_bind_of_ok (run_query_ok (read_sideEffects hget hkind rfl).1)]
    by_cases hleft : kept = []
    · subst hleft
      obtain ⟨t₂, hdetach, hreleased⟩ := hclean.release hn hkind hexpression
      have honly : OnlyExpression dropped [] := ⟨hsome, rfl⟩
      rw [if_pos List.isEmpty_nil, run_bind_of_ok hdetach]
      exact ⟨_, t₂, rfl, by simp [Computed.isChanged, Computed.changed, hsome], by simp [honly, Computed.changed],
        by simpa [honly] using hreleased⟩
    · have hnot : ¬ OnlyExpression dropped kept := fun honly => hleft honly.2
      rw [if_neg (by simpa using hleft)]
      exact ⟨_, t₁, rfl, by simp [Computed.isChanged, Computed.changed, hsome], by simp [hnot, Computed.changed],
        by simpa [hnot] using hclean⟩

/-- **Cleaning keeps exactly what can be noticed.** -/
theorem Consistent.computeSideEffects_keeps (h : t.Consistent) (hn : t.get? id = some n) (hkind : n.kind = .sideEffects)
    (hfilled : t.child id "expression" = .ok (some expression)) : ∃ effects dropped kept c t',
      t.childrenIn id "side_effects" = .ok effects ∧ dropped = effects.filter (t.Unnoticed ·) ∧
      kept = effects.filter (¬ t.Unnoticed ·) ∧ TreeM.computeSideEffects id t = .ok c t' ∧
      (c.isChanged = true ↔ dropped ≠ []) ∧ c.node = (if OnlyExpression dropped kept then expression else id) ∧
      (OnlyExpression dropped kept → t'.Loose expression) ∧
      Cleaned t t' id expression dropped kept (OnlyExpression dropped kept) := by
  obtain ⟨effects, hslots⟩ := h.slots_sideEffects hn hkind hfilled
  obtain ⟨c, t', hrun, hchange, hnode, hclean⟩ := h.clean_ok hn hkind hslots rfl rfl
  refine ⟨effects, _, _, c, t', (read_sideEffects hn hkind hslots).1, rfl, rfl, hrun, hchange, hnode, fun honly => ?_, hclean⟩
  obtain ⟨m, -, hoffered⟩ := hclean.offered
  refine ⟨⟨_, hoffered, if_pos (decide_eq_true honly)⟩, ?_⟩
  exact hclean.root ▸ h.ne_root_of_parent? (h.held_sideEffects hn hslots).1

/-- Two constants and, between them, an exception that is raised. -/
def mixedEffects : Tree :=
  .applyAll {} [.makeConstant (.str "a") .internal, .makeRaise ⟨.valueError, "spam"⟩ .internal,
    .makeConstant (.str "b") .internal, .makeConstant (.bool true) .internal,
    .makeSideEffects [⟨0⟩, ⟨1⟩, ⟨2⟩] ⟨3⟩ .internal]

/-- The constants go, and what raises stays. -/
theorem computeSideEffects_keeps_raise : mixedEffects.Built ∧
    mixedEffects.child ⟨4⟩ "expression" = .ok (some ⟨3⟩) ∧
    ∃ c t', TreeM.computeSideEffects ⟨4⟩ mixedEffects = .ok c t' ∧ c.isChanged = true ∧ c.node = ⟨4⟩ ∧
      t'.get? ⟨0⟩ = none ∧ t'.get? ⟨1⟩ = mixedEffects.get? ⟨1⟩ ∧ t'.get? ⟨2⟩ = none := by
  have hbuilt : mixedEffects.Built := ⟨_, rfl⟩
  have hfilled : mixedEffects.child ⟨4⟩ "expression" = .ok (some ⟨3⟩) := rfl
  obtain ⟨effects, dropped, kept, c, t', heffects, hdropped, hkept, hrun, hchange, hnode, -, hclean⟩ :=
    hbuilt.consistent.computeSideEffects_keeps (n := _) rfl rfl hfilled
  obtain rfl : [⟨0⟩, ⟨1⟩, ⟨2⟩] = effects := Except.ok.inj heffects
  obtain rfl : dropped = [⟨0⟩, ⟨2⟩] := hdropped.trans (by decide +kernel)
  obtain rfl : kept = [⟨1⟩] := hkept.trans (by decide +kernel)
  exact ⟨hbuilt, hfilled, c, t', hrun, hchange.2 nofun, hnode, hclean.gone (c := ⟨0⟩) (by simp) .refl,
    hclean.keeps (c := ⟨1⟩) (by simp) .refl, hclean.gone (c := ⟨2⟩) (by simp) .refl⟩

end Tree

end Specializer
