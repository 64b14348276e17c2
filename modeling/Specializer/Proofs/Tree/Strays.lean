import Specializer.Proofs.Tree.Inversion

/-!
# Nodes that hang nowhere

A live node that does not hang below the root is a `Stray`. Whoever works on what hangs below the root leaves the strays
alone, and has to make sure that nothing joins them: what is taken out of the tree, or newly made, is put back or torn
down in the end. `Tidy t₀ hand t` is the state in between. The strays of `t₀` are untouched, and whatever else hangs
nowhere is at hand. Each operation on a tree changes what is at hand in its own way (`Tidy.detach`, `Tidy.newNode`,
`Tidy.replaceWith`, `Tidy.finalize`), and with empty hands the strays are the old ones (`Tidy.stray_iff`).

Strays have stray parents and stray children. So everything that is found below a node that is no stray can be worked on.
-/

namespace Specializer.Tree

/-- A live node that does not hang below the root. -/
def Stray (t : Tree) (id : NodeId) : Prop := (∃ n, t.get? id = some n) ∧ ¬ t.Reachable id

section Stray

variable {t : Tree} {c p x top : NodeId}

theorem Reachable.of_isParent (h : t.Reachable p) (hp : t.IsParent c p) : t.Reachable c := by
  obtain ⟨r, hroot, hbelow⟩ := h
  exact ⟨r, hroot, .head hp hbelow⟩

theorem Consistent.reachable_parent (h : t.Consistent) (hc : t.Reachable c) (hp : t.IsParent c p) : t.Reachable p := by
  obtain ⟨r, hroot, hbelow⟩ := hc
  rcases Relation.ReflTransGen.cases_head hbelow with rfl | ⟨q, hq, hrest⟩
  · rw [IsParent, h.parent?_root hroot] at hp
    cases hp
  · obtain rfl := hq.unique hp
    exact ⟨r, hroot, hrest⟩

theorem Consistent.stray_iff_of_isParent (h : t.Consistent) (hp : t.IsParent c p) : t.Stray c ↔ t.Stray p := by
  obtain ⟨m, hm, -⟩ := parent?_eq_some_iff.1 hp
  obtain ⟨n, hn, -⟩ := h.parent_live hp
  constructor
  · rintro ⟨-, hnot⟩
    exact ⟨⟨n, hn⟩, fun hreach => hnot (hreach.of_isParent hp)⟩
  · rintro ⟨-, hnot⟩
    exact ⟨⟨m, hm⟩, fun hreach => hnot (h.reachable_parent hreach hp)⟩

theorem not_stray_root {r : NodeId} (hroot : t.root = some r) : ¬ t.Stray r := fun h => h.2 ⟨r, hroot, .refl⟩

/-- What hangs nowhere is a stray. -/
theorem Loose.stray (h : t.Loose x) : t.Stray x := by
  refine ⟨h.live.imp fun _ => And.left, ?_⟩
  rintro ⟨r, hroot, hbelow⟩
  obtain rfl := h.eq_of_below hbelow
  exact h.not_root hroot

/-- Every live node hangs below one without a parent. -/
theorem Consistent.exists_top (h : t.Consistent) {n : Node} (hx : t.get? x = some n) :
    ∃ top m, t.Below x top ∧ t.get? top = some m ∧ m.parent = none := by
  induction hdepth : t.depth x generalizing x n with
  | zero =>
    refine ⟨x, n, .refl, hx, ?_⟩
    cases hparent : n.parent with
    | none => rfl
    | some p =>
      have hp : t.IsParent x p := parent?_eq_some_iff.2 ⟨n, hx, hparent⟩
      rw [h.depth_of_parent hp] at hdepth
      cases hdepth
  | succ depth ih =>
    cases hparent : n.parent with
    | none => exact ⟨x, n, .refl, hx, hparent⟩
    | some p =>
      have hp : t.IsParent x p := parent?_eq_some_iff.2 ⟨n, hx, hparent⟩
      obtain ⟨m, hm, -⟩ := h.parent_live hp
      rw [h.depth_of_parent hp] at hdepth
      obtain ⟨top, m', hbelow, htop⟩ := ih hm (Nat.succ.inj hdepth)
      exact ⟨top, m', .head hp hbelow, htop⟩

end Stray

/-! ## Work in progress -/

/-- The strays of `t₀` are as they were, and whatever else hangs nowhere is at hand. -/
structure Tidy (t₀ : Tree) (hand : List NodeId) (t : Tree) : Prop where
  origin : t₀.Consistent
  consistent : t.Consistent
  root : t.root = t₀.root
  untouched : ∀ {x}, t₀.Stray x → t.get? x = t₀.get? x
  loose : ∀ {x}, t.Loose x → t₀.Stray x ∨ x ∈ hand
  own : ∀ x ∈ hand, ¬ t₀.Stray x

/-- A node that can be taken out of its place without touching a stray. -/
structure Movable (t₀ : Tree) (id : NodeId) : Prop where
  not_stray : ¬ t₀.Stray id
  not_root : t₀.root ≠ some id

theorem Consistent.tidy {t : Tree} (h : t.Consistent) : Tidy t [] t :=
  ⟨h, h, rfl, fun _ => rfl, fun hx => .inl hx.stray, nofun⟩

namespace Tidy

variable {t₀ t t' : Tree} {hand : List NodeId} {a c p x old new id : NodeId}

/-- Parents and children of strays are strays, so a node is one exactly if its parent is. -/
theorem stray_iff_of_isParent (h : Tidy t₀ hand t) (hp : t.IsParent c p) : t₀.Stray c ↔ t₀.Stray p := by
  constructor
  · intro hc
    have hp₀ : t₀.IsParent c p := by rwa [IsParent, parent?, ← h.untouched hc]
    exact (h.origin.stray_iff_of_isParent hp₀).1 hc
  · intro hpstray
    obtain ⟨n, hn, hmem⟩ := h.consistent.parent_live hp
    have hp₀ : t₀.IsParent c p := (h.origin.isParent_iff (h.untouched hpstray ▸ hn)).2 hmem
    exact (h.origin.stray_iff_of_isParent hp₀).2 hpstray

theorem stray_iff_of_below (h : Tidy t₀ hand t) (hbelow : t.Below x p) : t₀.Stray x ↔ t₀.Stray p := by
  induction hbelow using Relation.ReflTransGen.head_induction_on with
  | refl => exact Iff.rfl
  | head hstep _ ih => exact (h.stray_iff_of_isParent hstep).trans ih

theorem not_stray_of_reachable (h : Tidy t₀ hand t) (hx : t.Reachable x) : ¬ t₀.Stray x := by
  obtain ⟨r, hroot, hbelow⟩ := hx
  rw [h.stray_iff_of_below hbelow]
  exact not_stray_root (h.root ▸ hroot)

/-- What is found below a node that is no stray can be taken out. -/
theorem movable (h : Tidy t₀ hand t) (hp : t.IsParent c p) (hown : ¬ t₀.Stray p) : Movable t₀ c :=
  ⟨by rwa [h.stray_iff_of_isParent hp], h.root ▸ h.consistent.ne_root_of_parent? hp⟩

theorem mono {hand' : List NodeId} (h : Tidy t₀ hand t) (hsub : ∀ x ∈ hand, x ∈ hand')
    (hown : ∀ x ∈ hand', ¬ t₀.Stray x) : Tidy t₀ hand' t :=
  ⟨h.origin, h.consistent, h.root, h.untouched, fun hx => (h.loose hx).imp_right (hsub _), hown⟩

theorem of_get?_eq (h : Tidy t₀ hand t) (hget : ∀ x, t'.get? x = t.get? x) (hroot : t'.root = t.root)
    (hsize : t.bindings.size ≤ t'.bindings.size) : Tidy t₀ hand t' := by
  refine ⟨h.origin, h.consistent.of_get?_eq hget (fun r hr => h.consistent.root (hroot ▸ hr)) hsize,
    hroot.trans h.root, fun hx => (hget _).trans (h.untouched hx), fun {x} hx => h.loose ?_, h.own⟩
  exact ⟨by rw [← hget]; exact hx.live, hroot ▸ hx.not_root⟩

/-! ## Operations -/

/-- An exchange below a node that is no stray. -/
theorem relinked {parent : NodeId} {slots : List Slot} {added removed : Option NodeId} (h : Tidy t₀ hand t)
    (hr : Relinked t t' parent slots added removed) (hc : t'.Consistent) (hparent : ¬ t₀.Stray parent)
    (hadded : ∀ c, added = some c → ¬ t₀.Stray c) (hremoved : ∀ c, removed = some c → ¬ t₀.Stray c)
    {hand' : List NodeId} (hown : ∀ x ∈ hand', ¬ t₀.Stray x)
    (hhand : ∀ x, removed = some x ∨ added ≠ some x ∧ x ∈ hand → x ∈ hand') : Tidy t₀ hand' t' := by
  refine ⟨h.origin, hc, hr.root.trans h.root, fun {x} hx => ?_, fun {x} hx => ?_, hown⟩
  · have hne : x ≠ parent := fun e => hparent (e ▸ hx)
    have hna : added ≠ some x := fun e => hadded x e hx
    have hnr : removed ≠ some x := fun e => hremoved x e hx
    rw [hr.get?, h.untouched hx]
    cases t₀.get? x with
    | none => rfl
    | some m => simp [hne, hna, hnr]
  · obtain ⟨⟨m', hm', hnone⟩, hroot⟩ := hx
    obtain ⟨m, hm, rfl⟩ := hr.get?_eq_some hm'
    have hna : added ≠ some x := fun e => by simp [e] at hnone
    by_cases hremoved : removed = some x
    · exact .inr (hhand x (.inl hremoved))
    · rw [if_neg hna, if_neg hremoved] at hnone
      have hloose : t.Loose x := ⟨⟨m, hm, hnone⟩, hr.root ▸ hroot⟩
      exact (h.loose hloose).imp_right fun hmem => hhand x (.inr ⟨hna, hmem⟩)

theorem detach (h : Tidy t₀ hand t) (ha : Movable t₀ a) (hrun : TreeM.detach a t = .ok id t') :
    id = a ∧ Tidy t₀ (hand ++ [a]) t' := by
  have hown : ∀ x ∈ hand ++ [a], ¬ t₀.Stray x := by
    simpa [or_imp, forall_and] using And.intro h.own ha.not_stray
  cases hget : t.get? a with
  | none =>
    rw [TreeM.detach, run_get_bind, run_check_error (node_eq_error_iff.2 ⟨hget, rfl⟩)] at hrun
    cases hrun
  | some m =>
    cases hparent : m.parent with
    | none =>
      have hloose : t.Loose a := ⟨⟨m, hget, hparent⟩, h.root ▸ ha.not_root⟩
      cases hrun.symm.trans (detach_loose hloose)
      exact ⟨rfl, h.mono (by simp +contextual) hown⟩
    | some p =>
      have hp : t.IsParent a p := parent?_eq_some_iff.2 ⟨m, hget, hparent⟩
      obtain ⟨n, hn, -⟩ := h.consistent.parent_live hp
      obtain ⟨rfl, hr, hc⟩ := h.consistent.detach_eq_ok hn hp hrun
      have hpown : ¬ t₀.Stray p := by rw [← h.stray_iff_of_isParent hp]; exact ha.not_stray
      refine ⟨rfl, h.relinked hr hc hpown (by simp) ?_ hown ?_⟩
      · rintro c ⟨⟩
        exact ha.not_stray
      · rintro x (⟨⟨⟩⟩ | ⟨-, hx⟩)
        · simp
        · simp [hx]

theorem newNode {kind : NodeKind} {source : SourceRef} {payload : Payload} {slots : List Slot} (h : Tidy t₀ hand t)
    (rest : List NodeId) (hhand : ∀ x, x ∈ hand ↔ x ∈ slots.flatMap Slot.ids ∨ x ∈ rest)
    (hrun : TreeM.newNode kind source payload slots t = .ok id t') : Tidy t₀ (rest ++ [id]) t' := by
  obtain ⟨hmakes, rfl, rfl⟩ := newNode_eq_ok hrun
  have hfresh : ¬ t₀.Stray t.nextId := by
    intro hstray
    obtain ⟨n, hn⟩ := hstray.1
    rw [← h.untouched hstray, get?_nextId] at hn
    cases hn
  have hids {x : NodeId} (hx : x ∈ slots.flatMap Slot.ids) : ¬ t₀.Stray x := h.own x ((hhand x).2 (.inl hx))
  have hown : ∀ x ∈ rest ++ [t.nextId], ¬ t₀.Stray x := by
    intro x hx
    rcases List.mem_append.1 hx with hx | hx
    · exact h.own x ((hhand x).2 (.inr hx))
    · rwa [List.mem_singleton.1 hx]
  refine ⟨h.origin, h.consistent.addNode hmakes, by rw [root_addNode, h.root], fun {x} hx => ?_, fun {x} hx => ?_, hown⟩
  · have hne : x ≠ t.nextId := fun e => hfresh (e ▸ hx)
    rw [get?_addNode_of_ne _ _ _ _ t hne, if_neg fun hmem => hids hmem hx, h.untouched hx]
  · by_cases hne : x = t.nextId
    · simp [hne]
    · obtain ⟨⟨m', hm', hnone⟩, hroot⟩ := hx
      obtain ⟨m, hm, ⟨-, -, -, rfl⟩ | ⟨hmem, rfl⟩⟩ := get?_addNode_eq_some hmakes hne hm'
      · cases hnone
      · rcases h.loose ⟨⟨m', hm, hnone⟩, by simpa using hroot⟩ with hstray | hx
        · exact .inl hstray
        · exact .inr (by simp [((hhand x).1 hx).resolve_left hmem])

theorem finalize (h : Tidy t₀ hand t) (rest : List NodeId) (hhand : ∀ x, x ∈ hand ↔ x = a ∨ x ∈ rest)
    (hrun : TreeM.finalize a t = .ok () t') : Tidy t₀ rest t' := by
  obtain ⟨hloose, hc, ids, hmem, rfl⟩ := h.consistent.finalize_eq_ok hrun
  have ha : ¬ t₀.Stray a := h.own a ((hhand a).2 (.inl rfl))
  refine ⟨h.origin, hc, h.root, fun {x} hx => ?_, fun {x} hx => ?_, fun x hx => h.own x ((hhand x).2 (.inr hx))⟩
  · have hx' : x ∉ ids := fun hin => ha ((h.stray_iff_of_below ((hmem x).1 hin)).1 hx)
    rw [get?_erase_of_notMem hx', h.untouched hx]
  · obtain ⟨⟨m, hm, hnone⟩, hroot⟩ := hx
    refine (h.loose ⟨⟨m, get?_of_get?_erase hm, hnone⟩, hroot⟩).imp_right fun hin => ?_
    exact ((hhand x).1 hin).resolve_left fun e => notMem_of_get?_erase hm ((hmem x).2 (e ▸ .refl))

theorem replaceWith (h : Tidy t₀ hand t) (hold : ¬ t₀.Stray old) (rest : List NodeId)
    (hhand : ∀ x, x ∈ hand ↔ x = new ∨ x ∈ rest) (hrun : TreeM.replaceWith old new t = .ok () t') :
    Tidy t₀ (old :: rest) t' := by
  obtain ⟨parent, n, hn, hp, hloose, hnot, hr⟩ := h.consistent.replaceWith_eq_ok hrun
  have hc := h.consistent.relinked hr (h.consistent.exchange_renamed hn hp hloose hnot)
  have hparent : ¬ t₀.Stray parent := by rwa [← h.stray_iff_of_isParent hp]
  refine h.relinked hr hc hparent ?_ ?_ ?_ ?_
  · rintro c ⟨⟩
    exact h.own new ((hhand new).2 (.inl rfl))
  · rintro c ⟨⟩
    exact hold
  · intro x hx
    rcases List.mem_cons.1 hx with rfl | hx
    · exact hold
    · exact h.own x ((hhand x).2 (.inr hx))
  · rintro x (⟨⟨⟩⟩ | ⟨hne, hx⟩)
    · simp
    · exact List.mem_cons_of_mem _ (((hhand x).1 hx).resolve_left fun e => hne (e ▸ rfl))

theorem setCapabilities {capabilities : Capabilities} (h : Tidy t₀ hand t) (hid : ¬ t₀.Stray id)
    (hrun : TreeM.setCapabilities id capabilities t = .ok () t') : Tidy t₀ hand t' := by
  rw [TreeM.setCapabilities, run_get_bind] at hrun
  obtain ⟨n, hnode, rfl⟩ : ∃ n, t.node id = .ok n ∧
      t' = t.modifyNode id fun n => { n with override := some capabilities } := by
    cases hnode : t.node id with
    | error e =>
      rw [run_check_error hnode] at hrun
      cases hrun
    | ok n =>
      rw [run_check_ok hnode] at hrun
      cases hrun
      exact ⟨n, rfl, rfl⟩
  refine ⟨h.origin, h.consistent.override id capabilities, h.root, fun {x} hx => ?_, fun {x} hx => h.loose ?_, h.own⟩
  · have hne : x ≠ id := fun e => hid (e ▸ hx)
    rw [get?_modifyNode_of_ne t _ hne, h.untouched hx]
  · obtain ⟨⟨m', hm', hnone⟩, hroot⟩ := hx
    rw [get?_modifyNode] at hm'
    split at hm'
    · obtain ⟨m, hm, rfl⟩ := Option.map_eq_some_iff.1 hm'
      exact ⟨⟨m, hm, hnone⟩, hroot⟩
    · exact ⟨⟨m', hm', hnone⟩, hroot⟩

/-! ## Empty hands -/

/-- **With nothing left at hand, the strays are those there were at the start.** -/
theorem stray_iff (h : Tidy t₀ [] t) : t.Stray x ↔ t₀.Stray x := by
  constructor
  · rintro ⟨⟨n, hn⟩, hnot⟩
    obtain ⟨top, m, hbelow, hm, hnone⟩ := h.consistent.exists_top hn
    have htop : t.Loose top := ⟨⟨m, hm, hnone⟩, fun hroot => hnot ⟨top, hroot, hbelow⟩⟩
    exact (h.stray_iff_of_below hbelow).2 ((h.loose htop).resolve_right (by simp))
  · intro hx
    obtain ⟨n, hn⟩ := hx.1
    exact ⟨⟨n, (h.untouched hx).trans hn⟩, fun hreach => h.not_stray_of_reachable hreach hx⟩

end Tidy

end Specializer.Tree
