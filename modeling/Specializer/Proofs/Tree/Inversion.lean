import Specializer.Proofs.Tree.Update

/-!
# What a successful operation has done

Operations check before they write. So a node that was made had detached children, a node that gave way to another had a
place, and a node that was torn down had none; the tree afterwards is known in each case (`newNode_eq_ok`,
`Consistent.detach_eq_ok`, `Consistent.replaceWith_eq_ok`, `Consistent.finalize_eq_ok`).

Replacing a node and tearing it down are done together. `Replaced` says what is left then: nothing below the old node,
and every other node as it was, but for the slots of the parent and the link of the new node.
-/

namespace Specializer.Tree

variable {t t' : Tree} {id old new parent : NodeId} {n : Node}

theorem newNode_eq_ok {kind : NodeKind} {source : SourceRef} {payload : Payload} {slots : List Slot}
    (h : TreeM.newNode kind source payload slots t = .ok id t') :
    t.Makes kind payload slots ∧ id = t.nextId ∧ t' = t.addNode kind source payload slots := by
  rw [TreeM.newNode, run_get_bind] at h
  cases hcheck : t.checkNewNode kind payload slots with
  | error e =>
    rw [run_check_error hcheck] at h
    cases h
  | ok u =>
    rw [run_check_ok hcheck] at h
    cases h
    exact ⟨checkNewNode_eq_ok_iff.1 hcheck, rfl, rfl⟩

namespace Consistent

theorem detach_eq_ok (h : t.Consistent) {a : NodeId} (hp : t.get? parent = some n) (hid : t.IsParent id parent)
    (hrun : TreeM.detach id t = .ok a t') :
    a = id ∧ Relinked t t' parent (n.slots.map (Slot.without id)) none (some id) ∧ t'.Consistent := by
  obtain ⟨t₁, hrun₁, hr⟩ := h.detach_ok hp hid
  cases hrun.symm.trans hrun₁
  exact ⟨rfl, hr, h.relinked hr (exchange_without hp hid)⟩

/-- Removing what hangs below a loose node keeps the invariant. -/
theorem erase_below (h : t.Consistent) (hid : t.Loose id) {ids : List NodeId} (hmem : ∀ x, x ∈ ids ↔ t.Below x id) :
    (t.erase ids).Consistent := by
  refine h.erase (fun c p hcp => ?_) fun r hr hr' => ?_
  · rw [hmem, hmem]
    exact hid.below_iff_of_isParent hcp
  · obtain rfl := h.eq_of_root_below hr ((hmem r).1 hr')
    exact hid.not_root hr

theorem finalize_eq_ok (h : t.Consistent) (hrun : TreeM.finalize id t = .ok () t') :
    t.Loose id ∧ t'.Consistent ∧ ∃ ids, (∀ x, x ∈ ids ↔ t.Below x id) ∧ t' = t.erase ids := by
  have hloose : t.Loose id := by
    rw [TreeM.finalize, run_get_bind] at hrun
    by_cases hattached : t.isAttached id = true
    · rw [if_pos hattached] at hrun
      cases hrun
    · cases hid : t.get? id with
      | none =>
        have hwalk : t.walk id = .error (.staleNode id) := by
          rw [walk, walkUpTo, node_eq_error_iff.2 ⟨hid, rfl⟩]
          rfl
        rw [if_neg hattached] at hrun
        change (TreeM.ofExcept _ >>= _) t = _ at hrun
        rw [run_check_error hwalk] at hrun
        cases hrun
      | some n =>
        obtain ⟨hroot, hparent⟩ : t.root ≠ some id ∧ t.parent? id = none := by simpa [isAttached] using hattached
        exact ⟨⟨n, hid, by rw [← parent?_of_get? hid, hparent]⟩, hroot⟩
  obtain ⟨ids, hmem, hrun'⟩ := h.finalize_ok hloose
  cases hrun.symm.trans hrun'
  exact ⟨hloose, h.erase_below hloose hmem, ids, hmem, rfl⟩

theorem replaceWith_eq_ok (h : t.Consistent) (hrun : TreeM.replaceWith old new t = .ok () t') :
    ∃ parent n, t.get? parent = some n ∧ t.IsParent old parent ∧ t.Loose new ∧ ¬ t.StrictlyBelow old new ∧
      Relinked t t' parent (n.slots.map (Slot.renamed old new)) (some new) (some old) := by
  rw [TreeM.replaceWith, run_get_bind] at hrun
  cases hold : t.get? old with
  | none =>
    rw [run_check_error (node_eq_error_iff.2 ⟨hold, rfl⟩)] at hrun
    cases hrun
  | some m =>
    rw [run_check_ok (node_of_get? hold)] at hrun
    cases hparent : m.parent with
    | none =>
      simp only [hparent] at hrun
      cases hrun
    | some parent =>
      simp only [hparent] at hrun
      have hplace : t.IsParent old parent := parent?_eq_some_iff.2 ⟨m, hold, hparent⟩
      obtain ⟨n, hn, -⟩ := h.parent_live hplace
      cases hdetached : t.ensureDetached new with
      | error e =>
        rw [run_check_error hdetached] at hrun
        cases hrun
      | ok u =>
        have hloose := ensureDetached_eq_ok_iff.1 hdetached
        have hrest := hrun
        rw [run_check_ok hdetached] at hrun
        have hnot : ¬ t.StrictlyBelow old new := by
          rw [← h.isAncestor_iff]
          intro habove
          rw [if_pos habove] at hrun
          cases hrun
        obtain ⟨t₁, hrun₁, hr⟩ := h.replaceWith_ok hn hplace hloose hnot
        rw [TreeM.replaceWith, run_get_bind, run_check_ok (node_of_get? hold)] at hrun₁
        simp only [hparent] at hrun₁
        cases hrest.symm.trans hrun₁
        exact ⟨parent, n, hn, hplace, hloose, hnot, hr⟩

end Consistent

/-! ## Nodes that gave way -/

/-- The node `new` has taken the place of `old` below `parent`, and `old` was torn down. -/
structure Replaced (t t' : Tree) (old new parent : NodeId) : Prop where
  held : t.IsParent old parent
  loose : t.Loose new
  ne : new ≠ old
  consistent : t'.Consistent
  size : t'.nodes.size = t.nodes.size
  bindings : t'.bindings = t.bindings
  root : t'.root = t.root
  /-- What hung below the old node is gone. -/
  gone : ∀ {x}, t.Below x old → t'.get? x = none
  /-- Everything else is as it was, but for the slots of the parent and the link of the new node. -/
  node : ∀ {x}, ¬ t.Below x old → t'.get? x = (t.get? x).map fun n =>
    { n with
      slots := if x = parent then n.slots.map (Slot.renamed old new) else n.slots
      parent := if x = new then some parent else n.parent }

/-- Exchanging a child changes nothing below it. -/
theorem Relinked.below_old_iff {slots : List Slot} (hr : Relinked t t' parent slots (some new) (some old))
    (h : t.Consistent) (hold : t.IsParent old parent) (hnew : t.Loose new) (hne : new ≠ old) {x : NodeId} :
    t'.Below x old ↔ t.Below x old := by
  have hlink {c p : NodeId} (hcn : c ≠ new) (hco : c ≠ old) : t'.IsParent c p ↔ t.IsParent c p := by
    simp only [IsParent, parent?, hr.get?]
    cases t.get? c with
    | none => simp
    | some m => simp [Ne.symm hcn, Ne.symm hco]
  constructor
  · intro hb
    induction hb using Relation.ReflTransGen.head_induction_on with
    | refl => exact .refl
    | @head c p hcp hrest ih =>
      by_cases hco : c = old
      · exact hco ▸ .refl
      by_cases hcn : c = new
      · -- the new node hangs below the parent, which is above the old one
        subst hcn
        obtain rfl : p = parent := by
          obtain ⟨⟨m, hm, -⟩, -⟩ := hnew
          have hlinked : t'.parent? c = some parent := by simp [parent?, hr.get?, hm]
          exact Option.some.inj (hcp.symm.trans hlinked)
        exact absurd (Relation.TransGen.head' hold ih) (h.acyclic old)
      · exact .head ((hlink hcn hco).1 hcp) ih
  · intro hb
    induction hb using Relation.ReflTransGen.head_induction_on with
    | refl => exact .refl
    | @head c p hcp hrest ih =>
      by_cases hco : c = old
      · exact hco ▸ .refl
      · have hcn : c ≠ new := fun e => hnew.not_isParent (e ▸ hcp)
        exact .head ((hlink hcn hco).2 hcp) ih

theorem Consistent.replaced (h : t.Consistent) {t₁ : Tree} (hrun : TreeM.replaceWith old new t = .ok () t₁)
    (hrun' : TreeM.finalize old t₁ = .ok () t') : ∃ parent, Replaced t t' old new parent := by
  obtain ⟨parent, n, hn, hplace, hloose, hnot, hr⟩ := h.replaceWith_eq_ok hrun
  have h₁ : t₁.Consistent := h.relinked hr (h.exchange_renamed hn hplace hloose hnot)
  have hne : new ≠ old := fun e => hloose.not_isParent (e ▸ hplace)
  obtain ⟨-, hc, ids, hmem, rfl⟩ := h₁.finalize_eq_ok hrun'
  have hbelow {x : NodeId} : x ∈ ids ↔ t.Below x old :=
    (hmem x).trans (hr.below_old_iff h hplace hloose hne)
  refine ⟨parent, hplace, hloose, hne, hc, by simp [hr.size], hr.bindings, hr.root, fun {x} hx => ?_, fun {x} hx => ?_⟩
  · rw [get?_erase, if_pos (hbelow.2 hx)]
  · have hxo : x ≠ old := fun e => hx (e ▸ .refl)
    rw [get?_erase, if_neg (fun hx' => hx (hbelow.1 hx')), hr.get?]
    by_cases hxp : x = parent
    · subst hxp
      rw [hn]
      simp [Ne.symm hxo, eq_comm]
    · cases t.get? x with
      | none => rfl
      | some m => simp [hxp, Ne.symm hxo, eq_comm]

theorem Replaced.placed (h : Replaced t t' old new parent) (hnew : ¬ t.Below new old) : t'.IsParent new parent := by
  obtain ⟨⟨m, hm, -⟩, -⟩ := h.loose
  simp [IsParent, parent?, h.node hnew, hm]

end Specializer.Tree
