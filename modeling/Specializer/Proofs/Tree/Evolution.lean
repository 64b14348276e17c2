import Specializer.Proofs.Tree.Inversion

/-!
# What a tree keeps while it is worked on

Handles are never given out twice, and a live node keeps its kind, its payload and its place in the source. The only thing
that is ever learnt about a single node on the way is that it is an import that runs no code, and the nodes that are made on
the way read no variable (`Evolved`).

Making nodes, taking nodes out and tearing some of them down hangs nothing below a node that was there before (`Reshaped`).
If a node that was built in this way then takes the place of another, its link is the only new one to an old node
(`Reshaped.replaced`). `Stepped` says this of a step at one node, and of several steps in the same place (`Stepped.trans`).
-/

namespace Specializer

/-- What stays the same about a node; it may have been found to be an import that runs no code. -/
structure Node.Keeps (n n' : Node) : Prop where
  kind : n'.kind = n.kind
  source : n'.source = n.source
  payload : n'.payload = n.payload
  override : n'.override = n.override ∨ n'.override = some .quietImport

theorem Node.Keeps.refl (n : Node) : n.Keeps n := ⟨rfl, rfl, rfl, .inl rfl⟩

theorem Node.Keeps.trans {n n' n'' : Node} (h : n.Keeps n') (h' : n'.Keeps n'') : n.Keeps n'' := by
  refine ⟨h'.kind.trans h.kind, h'.source.trans h.source, h'.payload.trans h.payload, ?_⟩
  rcases h'.override with hsame | hquiet
  · rw [hsame]
    exact h.override
  · exact .inr hquiet

/-- Nothing is known about a node alone, unless that it is an import that runs no code. -/
def Node.Unmarked (n : Node) : Prop := n.override = none ∨ n.override = some .quietImport

theorem Node.Keeps.unmarked {n n' : Node} (h : n.Keeps n') (hn : n.Unmarked) : n'.Unmarked := by
  rcases h.override with hsame | hquiet
  · rw [Unmarked, hsame]
    exact hn
  · exact .inr hquiet

/-- What the nodes have in common that are made on the way. -/
structure Node.Made (n : Node) : Prop where
  kind : n.kind ≠ .variableRef
  unmarked : n.Unmarked

namespace Tree

variable {t t₁ t' : Tree} {id mid id' : NodeId} {torn : NodeId → Prop}

/-! ## Work in progress -/

/-- A tree after some work on it. -/
structure Evolved (t t' : Tree) : Prop where
  consistent : t'.Consistent
  size : t.nodes.size ≤ t'.nodes.size
  old : ∀ {x n'}, x.index < t.nodes.size → t'.get? x = some n' → ∃ n, t.get? x = some n ∧ n.Keeps n'
  new : ∀ {x n'}, t.nodes.size ≤ x.index → t'.get? x = some n' → n'.Made

namespace Evolved

theorem refl (h : t.Consistent) : Evolved t t :=
  ⟨h, Nat.le_refl _, fun _ hn => ⟨_, hn, .refl _⟩, fun hnew hn => absurd (lt_size_of_get? hn) (Nat.not_lt.2 hnew)⟩

theorem trans (h : Evolved t t₁) (h' : Evolved t₁ t') : Evolved t t' := by
  refine ⟨h'.consistent, Nat.le_trans h.size h'.size, fun hold hn' => ?_, fun {x n'} hnew hn' => ?_⟩
  · obtain ⟨n₁, hn₁, hkeeps'⟩ := h'.old (Nat.lt_of_lt_of_le hold h.size) hn'
    obtain ⟨n, hn, hkeeps⟩ := h.old hold hn₁
    exact ⟨n, hn, hkeeps.trans hkeeps'⟩
  · by_cases hold : x.index < t₁.nodes.size
    · obtain ⟨n₁, hn₁, hkeeps⟩ := h'.old hold hn'
      have hmade := h.new hnew hn₁
      exact ⟨hkeeps.kind ▸ hmade.kind, hkeeps.unmarked hmade.unmarked⟩
    · exact h'.new (Nat.not_lt.1 hold) hn'

/-- A stale handle stays stale. -/
theorem stale (h : Evolved t t') {x : NodeId} (hold : x.index < t.nodes.size) (hx : t.get? x = none) :
    t'.get? x = none := by
  cases hn' : t'.get? x with
  | none => rfl
  | some n' =>
    obtain ⟨n, hn, -⟩ := h.old hold hn'
    rw [hx] at hn
    cases hn

/-- Variables do not matter. -/
theorem congr {t'' : Tree} (h : Evolved t t') (hnodes : t''.nodes = t'.nodes) (hc : t''.Consistent) : Evolved t t'' := by
  have hget (x : NodeId) : t''.get? x = t'.get? x := by rw [get?, get?, hnodes]
  refine ⟨hc, hnodes ▸ h.size, fun hold hn' => ?_, fun hnew hn' => ?_⟩
  · exact h.old hold ((hget _).symm.trans hn')
  · exact h.new hnew ((hget _).symm.trans hn')

end Evolved

/-- No node that was there before has got a new child. What is gone hung below a node that was torn down, if that node
was there before. -/
structure Reshaped (torn : NodeId → Prop) (t t' : Tree) : Prop extends Evolved t t' where
  link : ∀ {x p}, p.index < t.nodes.size → t'.IsParent x p → t.IsParent x p
  bindings : t'.bindings = t.bindings
  lost : ∀ {x n}, t.get? x = some n → t'.get? x = none → ∃ a, torn a ∧ (a.index < t.nodes.size → t.Below x a)

namespace Reshaped

theorem refl (h : t.Consistent) : Reshaped torn t t := by
  refine ⟨.refl h, fun _ hp => hp, rfl, fun hn hnone => ?_⟩
  rw [hn] at hnone
  cases hnone

/-- What hangs below an old node hung below it before. -/
theorem below (h : Reshaped torn t t') {x a : NodeId} (ha : a.index < t.nodes.size) (hx : t'.Below x a) : t.Below x a := by
  suffices hboth : x.index < t.nodes.size ∧ t.Below x a from hboth.2
  induction hx using Relation.ReflTransGen.head_induction_on with
  | refl => exact ⟨ha, .refl⟩
  | head hp _ ih =>
    obtain ⟨hold, hbelow⟩ := ih
    have hp₀ := h.link hold hp
    obtain ⟨n, hn, -⟩ := parent?_eq_some_iff.1 hp₀
    exact ⟨lt_size_of_get? hn, .head hp₀ hbelow⟩

theorem trans (h : Reshaped torn t t₁) (h' : Reshaped torn t₁ t') : Reshaped torn t t' := by
  refine ⟨h.toEvolved.trans h'.toEvolved, fun hold hp => h.link hold (h'.link (Nat.lt_of_lt_of_le hold h.size) hp),
    h'.bindings.trans h.bindings, fun {x n} hn hnone => ?_⟩
  cases hn₁ : t₁.get? x with
  | none => exact h.lost hn hn₁
  | some n₁ =>
    obtain ⟨a, htorn, hbelow⟩ := h'.lost hn₁ hnone
    exact ⟨a, htorn, fun ha => h.below ha (hbelow (Nat.lt_of_lt_of_le ha h.size))⟩

theorem mono {torn' : NodeId → Prop} (h : Reshaped torn t t') (himp : ∀ a, torn a → torn' a) : Reshaped torn' t t' := by
  refine ⟨h.toEvolved, h.link, h.bindings, fun hn hnone => ?_⟩
  obtain ⟨a, htorn, hbelow⟩ := h.lost hn hnone
  exact ⟨a, himp a htorn, hbelow⟩

/-- If every node comes from one that was there before, which lost its link or kept it, no old node has a new child. -/
theorem of_get? (hc : t'.Consistent) (hsize : t'.nodes.size = t.nodes.size) (hbindings : t'.bindings = t.bindings)
    (hget : ∀ {x n'}, t'.get? x = some n' → ∃ n, t.get? x = some n ∧ n.Keeps n' ∧ (n'.parent = none ∨ n'.parent = n.parent))
    (hlost : ∀ {x n}, t.get? x = some n → t'.get? x = none → ∃ a, torn a ∧ (a.index < t.nodes.size → t.Below x a)) :
    Reshaped torn t t' := by
  refine ⟨⟨hc, Nat.le_of_eq hsize.symm, fun _ hn' => ?_, fun hnew hn' => ?_⟩, fun {x p} _ hp => ?_, hbindings, hlost⟩
  · obtain ⟨n, hn, hkeeps, -⟩ := hget hn'
    exact ⟨n, hn, hkeeps⟩
  · exact absurd (hsize ▸ lt_size_of_get? hn') (Nat.not_lt.2 hnew)
  · obtain ⟨n', hn', hparent⟩ := parent?_eq_some_iff.1 hp
    obtain ⟨n, hn, -, hnone | hsame⟩ := hget hn'
    · rw [hnone] at hparent
      cases hparent
    · exact parent?_eq_some_iff.2 ⟨n, hn, hsame ▸ hparent⟩

theorem newNode {kind : NodeKind} {source : SourceRef} {payload : Payload} {slots : List Slot} (hc : t.Consistent)
    (hkind : kind ≠ .variableRef) (h : TreeM.newNode kind source payload slots t = .ok id t') : Reshaped torn t t' := by
  obtain ⟨hmakes, rfl, rfl⟩ := newNode_eq_ok h
  have hold {x : NodeId} (hx : x.index < t.nodes.size) : x ≠ t.nextId := by
    rintro rfl
    exact Nat.lt_irrefl _ hx
  refine ⟨⟨hc.addNode hmakes, by simp, fun hx hn' => ?_, fun {x n'} hx hn' => ?_⟩, fun {x p} hp hlink => ?_, by simp,
    fun {x n} hn hnone => ?_⟩
  · obtain ⟨n, hn, ⟨-, -, -, rfl⟩ | ⟨-, rfl⟩⟩ := get?_addNode_eq_some hmakes (hold hx) hn'
    · exact ⟨n, hn, rfl, rfl, rfl, .inl rfl⟩
    · exact ⟨_, hn, .refl _⟩
  · by_cases hnext : x = t.nextId
    · subst hnext
      obtain rfl := Option.some.inj ((get?_addNode_nextId kind source payload slots t).symm.trans hn')
      exact ⟨hkind, .inl rfl⟩
    · obtain ⟨n, hn, -⟩ := get?_addNode_eq_some hmakes hnext hn'
      exact absurd (lt_size_of_get? hn) (Nat.not_lt.2 hx)
  · obtain ⟨n', hn', hparent⟩ := parent?_eq_some_iff.1 hlink
    by_cases hnext : x = t.nextId
    · subst hnext
      obtain rfl := Option.some.inj ((get?_addNode_nextId kind source payload slots t).symm.trans hn')
      cases hparent
    · obtain ⟨n, hn, ⟨-, -, -, rfl⟩ | ⟨-, rfl⟩⟩ := get?_addNode_eq_some hmakes hnext hn'
      · exact absurd (Option.some.inj hparent).symm (hold hp)
      · exact parent?_eq_some_iff.2 ⟨n', hn, hparent⟩
  · rw [get?_addNode_of_ne kind source payload slots t (ne_nextId_of_get? hn), hn] at hnone
    split at hnone <;> cases hnone

theorem detach {a : NodeId} (hc : t.Consistent) (h : TreeM.detach id t = .ok a t') : Reshaped torn t t' := by
  cases hm : t.get? id with
  | none =>
    rw [TreeM.detach, run_get_bind, run_check_error (node_eq_error_iff.2 ⟨hm, rfl⟩)] at h
    cases h
  | some m =>
    cases hparent : m.parent with
    | none =>
      rw [TreeM.detach, run_get_bind, run_check_ok (node_of_get? hm)] at h
      simp only [hparent] at h
      split at h
      · cases h
        have hc' : ({ t with root := none } : Tree).Consistent := hc.of_get?_eq (fun _ => rfl) (by simp) (Nat.le_refl _)
        refine .of_get? hc' rfl rfl (fun hn' => ⟨_, hn', .refl _, .inr rfl⟩) fun hn hnone => ?_
        cases hn.symm.trans hnone
      · cases h
        exact .refl hc
    | some p =>
      have hp : t.IsParent id p := parent?_eq_some_iff.2 ⟨m, hm, hparent⟩
      obtain ⟨n, hn, -⟩ := hc.parent_live hp
      obtain ⟨-, hr, hc'⟩ := hc.detach_eq_ok hn hp h
      refine .of_get? hc' hr.size hr.bindings (fun {x n'} hn' => ?_) fun hn hnone => ?_
      · obtain ⟨n₁, hn₁, rfl⟩ := hr.get?_eq_some hn'
        refine ⟨n₁, hn₁, ⟨rfl, rfl, rfl, .inl rfl⟩, ?_⟩
        by_cases hx : id = x <;> simp [hx]
      · rw [hr.get?, hn] at hnone
        cases hnone

theorem finalize (hc : t.Consistent) (htorn : torn id) (h : TreeM.finalize id t = .ok () t') : Reshaped torn t t' := by
  obtain ⟨-, hc', ids, hmem, rfl⟩ := hc.finalize_eq_ok h
  refine .of_get? hc' (by simp) (by simp) (fun {x n'} hn' => ?_) fun {x n} hn hnone => ⟨id, htorn, fun _ => ?_⟩
  · exact ⟨n', get?_of_get?_erase hn', .refl n', .inr rfl⟩
  · rw [get?_erase] at hnone
    split at hnone
    · next hx => exact (hmem x).1 hx
    · cases hn.symm.trans hnone

theorem setCapabilities (hc : t.Consistent) (h : TreeM.setCapabilities id .quietImport t = .ok () t') :
    Reshaped torn t t' := by
  rw [TreeM.setCapabilities, run_get_bind] at h
  cases hm : t.get? id with
  | none =>
    rw [run_check_error (node_eq_error_iff.2 ⟨hm, rfl⟩)] at h
    cases h
  | some m =>
  rw [run_check_ok (node_of_get? hm)] at h
  cases h
  refine .of_get? (hc.override id _) (size_modifyNode t id _) rfl (fun {x n'} hn' => ?_) fun hn hnone => ?_
  · rw [get?_modifyNode] at hn'
    split at hn'
    · obtain ⟨n, hn, rfl⟩ := Option.map_eq_some_iff.1 hn'
      exact ⟨n, hn, ⟨rfl, rfl, rfl, .inr rfl⟩, .inr rfl⟩
    · exact ⟨n', hn', .refl n', .inr rfl⟩
  · rw [get?_modifyNode, hn] at hnone
    split at hnone <;> cases hnone

end Reshaped

/-- A step at a node: the only new link to a node that was there before is that of the node now in its place. -/
structure Stepped (t t' : Tree) (id id' : NodeId) : Prop extends Evolved t t' where
  link : ∀ {x p}, p.index < t.nodes.size → t'.IsParent x p → t.IsParent x p ∨ x = id'
  gone : id' ≠ id → t'.get? id = none
  known : id'.index < t'.nodes.size

namespace Stepped

theorem trans (hid : id.index < t.nodes.size) (h : Stepped t t₁ id mid) (h' : Stepped t₁ t' mid id') :
    Stepped t t' id id' := by
  refine ⟨h.toEvolved.trans h'.toEvolved, fun {x p} hold hp => ?_, fun hne => ?_, h'.known⟩
  · rcases h'.link (Nat.lt_of_lt_of_le hold h.size) hp with hp₁ | rfl
    · rcases h.link hold hp₁ with hp₀ | rfl
      · exact .inl hp₀
      · -- the node in between is still there, so it was not replaced
        refine .inr (Eq.symm ?_)
        by_contra hne
        rw [IsParent, parent?, h'.gone hne] at hp
        cases hp
    · exact .inr rfl
  · by_cases hmid : mid = id
    · exact hmid ▸ h'.gone (hmid ▸ hne)
    · exact h'.stale (Nat.lt_of_lt_of_le hid h.size) (h.gone hmid)

theorem congr {t'' : Tree} (h : Stepped t t' id id') (hnodes : t''.nodes = t'.nodes) (hc : t''.Consistent) :
    Stepped t t'' id id' := by
  have hget (x : NodeId) : t''.get? x = t'.get? x := by rw [get?, get?, hnodes]
  refine ⟨h.toEvolved.congr hnodes hc, fun hold hp => h.link hold ?_, fun hne => ?_, hnodes ▸ h.known⟩
  · rwa [IsParent, parent?, ← hget]
  · rw [hget, h.gone hne]

end Stepped

theorem Reshaped.stepped (h : Reshaped torn t t') (hid : id.index < t.nodes.size) : Stepped t t' id id :=
  ⟨h.toEvolved, fun hold hp => .inl (h.link hold hp), fun hne => absurd rfl hne, Nat.lt_of_lt_of_le hid h.size⟩

/-- A node that was built meanwhile takes a place. -/
theorem Reshaped.replaced {parent : NodeId} (h : Reshaped torn t t₁) (hr : Replaced t₁ t' id id' parent) :
    Stepped t t' id id' := by
  obtain ⟨m, hm, -⟩ := hr.loose.live
  have hback {x : NodeId} {n' : Node} (hn' : t'.get? x = some n') : ¬ t₁.Below x id ∧ ∃ n, t₁.get? x = some n ∧
      n.Keeps n' ∧ n'.parent = if x = id' then some parent else n.parent := by
    have hnot : ¬ t₁.Below x id := fun hb => by
      rw [hr.gone hb] at hn'
      cases hn'
    rw [hr.node hnot] at hn'
    obtain ⟨n, hn, rfl⟩ := Option.map_eq_some_iff.1 hn'
    exact ⟨hnot, n, hn, ⟨rfl, rfl, rfl, .inl rfl⟩, rfl⟩
  have hevolved : Evolved t₁ t' := by
    refine ⟨hr.consistent, Nat.le_of_eq hr.size.symm, fun _ hn' => ?_, fun hnew hn' => ?_⟩
    · obtain ⟨-, n, hn, hkeeps, -⟩ := hback hn'
      exact ⟨n, hn, hkeeps⟩
    · exact absurd (hr.size ▸ lt_size_of_get? hn') (Nat.not_lt.2 hnew)
  refine ⟨h.toEvolved.trans hevolved, fun {x p} hold hp => ?_, fun _ => hr.gone .refl, ?_⟩
  · obtain ⟨n', hn', hparent⟩ := parent?_eq_some_iff.1 hp
    obtain ⟨-, n, hn, -, hlink⟩ := hback hn'
    by_cases hx : x = id'
    · exact .inr hx
    · rw [if_neg hx] at hlink
      exact .inl (h.link hold (parent?_eq_some_iff.2 ⟨n, hn, hlink ▸ hparent⟩))
  · exact hr.size ▸ lt_size_of_get? hm

theorem Stepped.refl (hc : t.Consistent) (hid : id.index < t.nodes.size) : Stepped t t id id :=
  (Reshaped.refl hc : Reshaped (fun _ => False) t t).stepped hid

theorem Replaced.stepped {parent : NodeId} (hr : Replaced t t' id id' parent) (hc : t.Consistent) : Stepped t t' id id' :=
  (Reshaped.refl hc : Reshaped (fun _ => False) t t).replaced hr

end Tree

end Specializer
