import Specializer.Proofs.Replacement.Progress
import Specializer.Proofs.Replacement.Settling
import Specializer.Proofs.Replacement.Tidiness

/-!
# Computations record exits

After a node has been computed, the node in its place is covered: if it may raise, an exit is recorded with its place in the
source. There is one exception. An expression that is left after its side effects were dropped was computed before, and
nothing more is recorded for it (`compute_remains`). A node that raises whenever it is computed ends control
(`compute_aborts`).
-/

namespace Specializer

open Specializer.Tree

/-- What may raise may do so because of its kind. -/
theorem Node.Unmarked.mayRaise {n : Node} (h : n.Unmarked) (hraises : n.capabilities.mayRaise = true) :
    n.override = none ∧ n.kind.capabilities.mayRaise = true := by
  rcases h with hnone | hquiet
  · rw [Node.capabilities, hnone] at hraises
    exact ⟨hnone, hraises⟩
  · rw [Node.capabilities, hquiet] at hraises
    cases hraises

/-- Nothing is known about single nodes, unless that they are imports that run no code. -/
def Tree.Unmarked (t : Tree) : Prop := ∀ ⦃id n⦄, t.get? id = some n → n.Unmarked

theorem Tree.Evolved.unmarked {t t' : Tree} (h : Evolved t t') (hu : t.Unmarked) : t'.Unmarked := by
  intro id n' hn'
  by_cases hold : id.index < t.nodes.size
  · obtain ⟨n, hn, hkeeps⟩ := h.old hold hn'
    exact hkeeps.unmarked (hu hn)
  · exact (h.new (Nat.not_lt.1 hold) hn').unmarked

theorem Trace.mem_recordExit (t : Trace) (kind : ExceptionKind) (source : SourceRef) :
    ⟨kind, source⟩ ∈ (t.recordExit kind source).exits :=
  List.mem_append_right _ (List.mem_singleton_self _)

namespace ReplaceM

variable {s : Settings} {w w₀ w₁ w' : Workspace} {id id' new : NodeId} {n : Node} {c : Computed} {kind : NodeKind}
  {source : SourceRef}

/-! ## Covered nodes -/

/-- If the node may raise, an exit is recorded with its place in the source. -/
def Covered (w : Workspace) (id : NodeId) : Prop :=
  ∀ ⦃n⦄, w.tree.get? id = some n → n.capabilities.mayRaise = true → ∃ exit ∈ w.trace.exits, exit.source = n.source

namespace Covered

theorem of_silent (hu : w.tree.Unmarked) (hn : w.tree.get? id = some n) (hsilent : n.kind.capabilities.mayRaise = false) :
    Covered w id := by
  intro n' hn' hraises
  obtain rfl := Option.some.inj (hn.symm.trans hn')
  rw [((hu hn).mayRaise hraises).2] at hsilent
  cases hsilent

theorem recordExit {kind : ExceptionKind} (hn : w.tree.get? id = some n) :
    Covered { w with trace := w.trace.recordExit kind n.source } id := by
  intro n' hn' _
  obtain rfl := Option.some.inj (hn.symm.trans hn')
  exact ⟨_, w.trace.mem_recordExit kind n.source, rfl⟩

/-- Covered nodes stay covered. -/
theorem later (h : Covered w id) (hknown : id.index < w.tree.nodes.size) (hu : w.tree.Unmarked)
    (hevolved : w.tree.Evolved w'.tree) (hremembers : Remembers w w') : Covered w' id := by
  intro n' hn' hraises
  obtain ⟨n, hn, hkeeps⟩ := hevolved.old hknown hn'
  obtain ⟨hnone, hkind⟩ := (hkeeps.unmarked (hu hn)).mayRaise hraises
  have hsame : n.override = none := by
    rcases hkeeps.override with hsame | hquiet
    · rw [← hsame, hnone]
    · rw [hnone] at hquiet
      cases hquiet
  have hbefore : n.capabilities.mayRaise = true := by
    rw [Node.capabilities, hsame, ← hkeeps.kind]
    exact hkind
  obtain ⟨exit, hexit, hsource⟩ := h hn hbefore
  exact ⟨exit, hremembers.exits hexit, hsource.trans hkeeps.source.symm⟩

end Covered

/-! ## What is left in the place of a node -/

/-- What a computation leaves for the place of a node: the node itself, a new one without operands, or what is computed
after side effects that were dropped. -/
inductive Remains (t : Tree) (id : NodeId) (w' : Workspace) : NodeId → Prop
  | itself (h : Covered w' id) : Remains t id w' id
  | leaf {new : NodeId} (hknown : new.index < w'.tree.nodes.size) (h : Covered w' new)
      (hleaf : ∀ x, ¬ w'.tree.IsParent x new) : Remains t id w' new
  | operand {child : NodeId} (hkind : t.kind id = .ok .sideEffects) (h : t.IsParent child id) : Remains t id w' child

/-- A new node without operands. -/
structure IsLeaf (t : Tree) (kind : NodeKind) (source : SourceRef) (id : NodeId) : Prop where
  node : ∃ n, t.get? id = some n ∧ n.kind = kind ∧ n.source = source ∧ n.override = none
  childless : ∀ x, ¬ t.IsParent x id

theorem gives_newLeaf {payload : Payload} {t : Tree} (hc : t.Consistent) :
    Gives t (TreeM.newNode kind source payload []) fun new t' => IsLeaf t' kind source new := by
  intro new t' h
  obtain ⟨hmakes, rfl, rfl⟩ := newNode_eq_ok h
  have hnew := get?_addNode_nextId kind source payload [] t
  refine ⟨⟨_, hnew, rfl, rfl, rfl⟩, fun x hx => ?_⟩
  have hmem := ((hc.addNode hmakes).isParent_iff hnew).1 hx
  exact absurd hmem List.not_mem_nil

theorem IsLeaf.remains {t : Tree} (h : IsLeaf w.tree kind source new)
    (hexit : kind.capabilities.mayRaise = true → ∃ exit ∈ w.trace.exits, exit.source = source) : Remains t id w new := by
  obtain ⟨n, hn, rfl, rfl, hnone⟩ := h.node
  refine .leaf (lt_size_of_get? hn) (fun n' hn' hraises => ?_) h.childless
  obtain rfl := Option.some.inj (hn.symm.trans hn')
  rw [Node.capabilities, hnone] at hraises
  exact hexit hraises

/-- A computation leaves something, and another node only if it says so. -/
structure CoveredOffer (t : Tree) (id : NodeId) (c : Computed) (w' : Workspace) : Prop where
  unchanged : c.change = none → c.node = id
  remains : Remains t id w' c.node

theorem CoveredOffer.itself {t : Tree} (h : Covered w' id) : CoveredOffer t id (.unchanged id) w' := ⟨fun _ => rfl, .itself h⟩

theorem CoveredOffer.made {t : Tree} {tags : ChangeTags} {message : String} (h : Remains t id w' new) :
    CoveredOffer t id (.changed new tags message) w' := ⟨nofun, h⟩

/-! ## Computations -/

section Yields

variable {α β : Type} {x : ReplaceM α} {f : α → ReplaceM β} {Q : β → Workspace → Prop} {R : α → Workspace → Prop}

/-- What a computation gives, if anything, satisfies `Q`. -/
def Yields (w : Workspace) (x : ReplaceM α) (Q : α → Workspace → Prop) : Prop := ∀ ⦃s a w'⦄, x s w = .ok a w' → Q a w'

theorem yields_ret {b : β} (h : Q b w) : Yields w (pure b) Q := by
  rintro s _ _ ⟨⟩
  exact h

theorem Yields.bind (hx : Yields w x R) (hf : ∀ a w', R a w' → Yields w' (f a) Q) : Yields w (x >>= f) Q := by
  intro s b w'' hrun
  obtain ⟨a, w', hfirst, hrest⟩ := reads_bind_eq_ok_iff.1 hrun
  exact hf a w' (hx hfirst) hrest

theorem yields_ask {question : Tree → Except TreeError α} (hf : ∀ a, question w.tree = .ok a → Yields w (f a) Q) :
    Yields w (ask question >>= f) Q := by
  intro s b w' hrun
  obtain ⟨a, ha, hrest⟩ := ask_bind_eq_ok_iff.1 hrun
  exact hf a ha hrest

theorem yields_tree {f : Tree → ReplaceM β} (hf : Yields w (f w.tree) Q) : Yields w (tree >>= f) Q :=
  fun _ _ _ hrun => hf ((reads_bind_of_ok tree_ok).symm.trans hrun)

theorem yields_settings {f : Settings → ReplaceM β} (hf : ∀ settings, Yields w (f settings) Q) :
    Yields w (read >>= f) Q :=
  fun s _ _ hrun => hf s ((reads_bind_of_ok settings_ok).symm.trans hrun)

theorem yields_version {f : Version → ReplaceM β} (hf : ∀ version, Yields w (f version) Q) :
    Yields w (version >>= f) Q :=
  fun s _ _ hrun => hf s.options.version ((reads_bind_of_ok version_ok).symm.trans hrun)

theorem yields_recordExit {kind : ExceptionKind} {f : Unit → ReplaceM β}
    (hf : Yields { w with trace := w.trace.recordExit kind source } (f ()) Q) : Yields w (recordExit kind source >>= f) Q :=
  fun _ _ _ hrun => hf ((reads_bind_of_ok (recordExit_ok ..)).symm.trans hrun)

theorem yields_abort {f : Unit → ReplaceM β} (hf : Yields { w with trace := w.trace.abort } (f ()) Q) :
    Yields w (abort >>= f) Q :=
  fun _ _ _ hrun => hf hrun

theorem Yields.onCompile {action : CompileM α} {Q : α → Tree → Prop} (h : Gives w.tree action Q) :
    Yields w (onCompile action) fun a w' => Q a w'.tree ∧ w' = { w with tree := w'.tree } := by
  intro s a w' hrun
  unfold ReplaceM.onCompile at hrun
  cases haction : action w.tree with
  | ok b t =>
    rw [haction] at hrun
    cases hrun
    exact ⟨h haction, rfl⟩
  | error e t =>
    rw [haction] at hrun
    cases hrun

theorem Yields.onTree {action : TreeM α} {Q : α → Tree → Prop} (h : Gives w.tree action Q) :
    Yields w (onTree action) fun a w' => Q a w'.tree ∧ w' = { w with tree := w'.tree } := .onCompile h.onTree

end Yields

section Computations

variable {t : Tree}

theorem yields_itself (h : Covered w id) : Yields w (pure (Computed.unchanged id)) (CoveredOffer t id) :=
  yields_ret (.itself h)

/-- An exit is recorded, and the node stays. -/
theorem yields_exit {kind : ExceptionKind} (hn : w.tree.get? id = some n) :
    Yields w (recordExit kind n.source >>= fun _ => pure (.unchanged id)) (CoveredOffer t id) :=
  yields_recordExit (yields_itself (.recordExit hn))

/-- Folding an operation leaves it as it is, or makes a node that is covered. -/
theorem yields_foldBuiltin (hc : w.tree.Consistent) (signature : Signature) :
    Yields w (foldBuiltin id signature) fun c w' =>
      (c = .unchanged id ∧ w' = w) ∨ (c.isChanged = true ∧ CoveredOffer t id c w') := by
  unfold foldBuiltin
  split
  · exact yields_ret (.inl ⟨rfl, rfl⟩)
  refine yields_ask fun arguments? _ => ?_
  split
  · exact yields_ret (.inl ⟨rfl, rfl⟩)
  refine yields_ask fun source _ => yields_version fun version => ?_
  split
  · refine Yields.bind (.onTree (gives_newLeaf hc)) fun new w' h => yields_ret (.inr ⟨rfl, ?_⟩)
    exact .made (h.1.remains nofun)
  · next raised _ =>
    refine yields_recordExit (Yields.bind (.onTree (gives_newLeaf hc)) fun new w' h => yields_ret (.inr ⟨rfl, ?_⟩))
    refine .made (h.1.remains fun _ => ⟨⟨raised.kind, source⟩, ?_, rfl⟩)
    rw [h.2]
    exact w.trace.mem_recordExit _ _
  · exact yields_ret (.inl ⟨rfl, rfl⟩)

theorem gives_makeModule {locator : Locator} {module : ModuleName} (hc : t.Consistent) :
    Gives t (HardImport.makeModule locator module source) fun new t' => IsLeaf t' .importModuleHard source new :=
  (gives_locate ..).bind fun _ _ ht => ht ▸ (gives_newLeaf hc).onTree

theorem gives_makeName {locator : Locator} {version : Version} {module : ModuleName} {name : String} (hc : t.Consistent) :
    Gives t (HardImport.makeName locator version module name source) fun new t' =>
      ∃ kind, IsLeaf t' kind source new ∧
        (kind = .importModuleNameHardExists ∨ kind = .importModuleNameHardMaybeExists) := by
  refine (gives_locate ..).bind fun _ _ ht => ht ▸ Gives.onTree fun _ _ hnew => ⟨_, gives_newLeaf hc hnew, ?_⟩
  split
  · exact .inl rfl
  · exact .inr rfl

theorem yields_computeImportModule {spec : ImportSpec} (hc : w.tree.Consistent) (hn : w.tree.get? id = some n) :
    Yields w (computeImportModule id spec n.source) (CoveredOffer t id) := by
  refine yields_settings fun settings => yields_tree ?_
  dsimp only
  split
  · exact yields_exit hn
  split
  · exact (Yields.onCompile (gives_makeModule hc)).bind fun new w' h => yields_ret (.made (h.1.remains nofun))
  split
  · refine yields_ask fun capabilities hcapabilities => ?_
    split
    · next hquiet =>
      refine yields_itself fun n' hn' hraises => ?_
      obtain rfl := Except.ok.inj ((capabilities_ok hn').symm.trans hcapabilities)
      rw [hquiet] at hraises
      cases hraises
    · refine (Yields.onTree (Q := fun _ t' => ∃ n', t'.get? id = some n' ∧ n'.override = some .quietImport) ?_).bind ?_
      · intro _ t' hset
        rw [TreeM.setCapabilities, run_get_bind, run_check_ok (node_of_get? hn)] at hset
        cases hset
        have hget := get?_modifyNode_self w.tree id fun n => { n with override := some .quietImport }
        rw [hn, Option.map_some] at hget
        exact ⟨_, hget, rfl⟩
      · rintro _ w' ⟨⟨n', hn', hquiet⟩, -⟩
        refine yields_itself fun m hm hraises => ?_
        obtain rfl := Option.some.inj (hn'.symm.trans hm)
        rw [Node.capabilities, hquiet] at hraises
        cases hraises
  · exact yields_exit hn

theorem yields_computeImportName {name : String} (hc : w.tree.Consistent) (hn : w.tree.get? id = some n) :
    Yields w (computeImportName id name n.source) (CoveredOffer t id) := by
  refine yields_ask fun module? _ => ?_
  split
  on_goal 2 => refine yields_ask fun payload _ => ?_
  all_goals
    refine Yields.bind (R := fun _ w' => w' = w) (yields_ret rfl) fun payload? w' hw => ?_
    subst hw
    dsimp only
    split
    · exact yields_exit hn
    · refine yields_settings fun settings => yields_version fun version => ?_
      refine (Yields.onCompile (gives_makeName hc)).bind fun new w' h => yields_ask fun kind hkind => ?_
      obtain ⟨⟨kind', hleaf, hkinds⟩, -⟩ := h
      obtain ⟨m, hm, hmkind, -⟩ := hleaf.node
      obtain rfl : kind' = kind := by
        rw [kind_ok hm, hmkind] at hkind
        exact Except.ok.inj hkind
      split
      · refine yields_recordExit (yields_ret (.made (IsLeaf.remains hleaf fun _ => ?_)))
        exact ⟨_, w'.trace.mem_recordExit .attributeError n.source, rfl⟩
      · next hnot =>
        refine yields_ret (.made (hleaf.remains fun hraises => ?_))
        rcases hkinds with rfl | rfl
        · cases hraises
        · exact absurd rfl hnot

/-- What is taken out of a slot has no parent any more. -/
theorem gives_detachSlot_loose (torn : NodeId → Prop) {slot : String} (hc : t.Consistent) :
    Gives t (TreeM.detachSlot id slot) fun c? t' =>
      Reshaped torn t t' ∧ ∀ c, c? = some c → t.child id slot = .ok (some c) ∧ t'.parent? c = none := by
  refine gives_query fun c? hchild => ?_
  cases c? with
  | none => exact gives_ret ⟨.refl hc, nofun⟩
  | some c =>
    have hparent := hc.isParent_of_child hchild
    refine Gives.bind (R := fun a t' => a = c ∧ Reshaped torn t t' ∧ t'.parent? c = none) (fun a t' hrun => ?_) ?_
    · obtain ⟨n, hn, -⟩ := hc.parent_live hparent
      obtain ⟨rfl, hr, -⟩ := hc.detach_eq_ok hn hparent hrun
      obtain ⟨m, hm, -⟩ := parent?_eq_some_iff.1 hparent
      exact ⟨rfl, .detach hc hrun, by simp [parent?, hr.get?, hm]⟩
    · rintro _ t' ⟨rfl, hreshaped, hloose⟩
      refine gives_ret ⟨hreshaped, ?_⟩
      rintro _ ⟨⟩
      exact ⟨hchild, hloose⟩

/-- Dropping side effects leaves the node or what it computes. -/
theorem gives_computeSideEffects_node (hc : t.Consistent) (hn : t.get? id = some n) :
    Gives t (TreeM.computeSideEffects id) fun c _ =>
      (c.change = none → c.node = id) ∧ (c.node = id ∨ t.IsParent c.node id) := by
  refine gives_get (gives_check fun effects _ => ?_)
  refine (gives_filterM effects fun effect _ => gives_check fun b _ => gives_ret rfl).bind ?_
  rintro dropped t₁ ⟨rfl, -⟩
  dsimp only
  split
  · exact gives_ret ⟨fun _ => rfl, .inl rfl⟩
  have hdiscard : Gives t₁ (TreeM.discardAll dropped) fun _ => Reshaped (fun _ => True) t₁ :=
    fun _ _ hrun => Shapes.discardAll (fun _ _ => trivial) hc hrun
  refine hdiscard.bind fun _ t₂ h₂ => gives_query fun left _ => ?_
  split
  · refine (gives_detachSlot_loose (fun _ => True) h₂.consistent).bind fun expression? t₃ h₃ => ?_
    cases expression? with
    | none => exact gives_ret ⟨fun _ => rfl, .inl rfl⟩
    | some expression =>
      have hparent := h₂.consistent.isParent_of_child (h₃.2 expression rfl).1
      exact gives_ret ⟨nofun, .inr (h₂.link (lt_size_of_get? hn) hparent)⟩
  · exact gives_ret ⟨fun _ => rfl, .inl rfl⟩

theorem Payload.eq_raise {payload : Payload} (h : payload.form = .raise) : ∃ raised, payload = .raise raised := by
  cases payload with
  | raise raised => exact ⟨raised, rfl⟩
  | _ => cases h

/-- **What a computation offers is covered, or it was computed before.** -/
theorem yields_computeNode (hc : w.tree.Consistent) (hu : w.tree.Unmarked) :
    Yields w (computeNode id) (CoveredOffer w.tree id) := by
  refine yields_ask fun n hnode => ?_
  have hn := node_eq_ok_iff.1 hnode
  have hform := (hc.conforms hn).payload
  split
  · next hkind =>
    obtain ⟨raised, hpayload⟩ := Payload.eq_raise (hform.trans (by rw [hkind]; rfl))
    rw [hpayload]
    exact yields_recordExit (yields_abort (yields_itself fun _ hn' => Covered.recordExit hn hn'))
  · next hkind =>
    intro s c w' hrun
    have hreshaped := (Preparing.onTree (Shapes.computeSideEffects id) hc hrun).reshaped
    obtain ⟨hunchanged, hnode | hchild⟩ := gives_computeSideEffects_node hc hn (onTree_eq_ok hrun)
    · refine ⟨hunchanged, ?_⟩
      rw [hnode]
      refine .itself fun n' hn' hraises => ?_
      obtain ⟨m, hm, hkeeps⟩ := hreshaped.old (lt_size_of_get? hn) hn'
      obtain rfl := Option.some.inj (hn.symm.trans hm)
      have hsilent := ((hkeeps.unmarked (hu hn)).mayRaise hraises).2
      rw [hkeeps.kind, hkind] at hsilent
      cases hsilent
    · exact ⟨hunchanged, .operand (kind_eq_ok_iff.2 ⟨n, hn, hkind⟩) hchild⟩
  · exact yields_exit hn
  · refine (yields_foldBuiltin (t := w.tree) hc Signature.range).bind ?_
    rintro c w' (⟨rfl, rfl⟩ | ⟨hchanged, hoffer⟩)
    · rw [if_neg (by simp [Computed.isChanged, Computed.unchanged])]
      exact yields_exit hn
    · rw [if_pos hchanged]
      exact yields_ret hoffer
  · next hkind =>
    obtain ⟨spec, hpayload⟩ := Payload.eq_moduleImport (hform.trans (by rw [hkind]; rfl))
    rw [hpayload]
    exact yields_computeImportModule hc hn
  · next hkind =>
    obtain ⟨name, level, hpayload⟩ := Payload.eq_importName (hform.trans (by rw [hkind]; rfl))
    rw [hpayload]
    exact yields_computeImportName hc hn
  · exact yields_exit hn
  · split
    · exact yields_exit hn
    · next hnot =>
      refine yields_itself fun n' hn' hraises => ?_
      obtain rfl := Option.some.inj (hn.symm.trans hn')
      exact absurd hraises hnot

theorem yields_computeNode_abortive (hkind : w.tree.kind id = .ok .raiseException) :
    Yields w (computeNode id) fun _ w' => w'.trace.abortive = true := by
  refine yields_ask fun n hnode => ?_
  rw [kind_ok (node_eq_ok_iff.1 hnode)] at hkind
  rw [Except.ok.inj hkind]
  dsimp only
  split
  · exact yields_recordExit (yields_abort (yields_ret rfl))
  · exact yields_abort (yields_ret rfl)

/-! ## Outcomes in their places -/

theorem applyComputed_eq_node (hc : c.change = none → c.node = id) (hrun : applyComputed id c s w = .ok id' w') :
    id' = c.node := by
  cases hchange : c.change with
  | none =>
    rw [applyComputed_unchanged hchange] at hrun
    cases hrun
    exact (hc hchange).symm
  | some change => exact node_of_applyComputed (by rw [Computed.isChanged, hchange]; rfl) hrun

/-- **What is in the place of a node that was computed** is covered, unless it was computed before. -/
theorem compute_remains (hc : w.tree.Consistent) (hu : w.tree.Unmarked) (hid : id.index < w.tree.nodes.size)
    (hrun : (computeNode id >>= applyComputed id) s w = .ok id' w') : Remains w.tree id w' id' := by
  obtain ⟨c, w₁, hcompute, happly⟩ := reads_bind_eq_ok_iff.1 hrun
  obtain ⟨hremembers, hreshaped, -⟩ := preparing_computeNode id hc hcompute
  obtain ⟨hunchanged, hremains⟩ := yields_computeNode hc hu hcompute
  have hsteps := Stepping.applyComputed c hreshaped.consistent (Nat.lt_of_lt_of_le hid hreshaped.size) happly
  have hcovered {y : NodeId} (hy : y.index < w₁.tree.nodes.size) (h : Covered w₁ y) : Covered w' y :=
    h.later hy (hreshaped.unmarked hu) hsteps.stepped.toEvolved hsteps.toRemembers
  rw [← applyComputed_eq_node hunchanged happly] at hremains
  cases hremains with
  | itself h => exact .itself (hcovered (Nat.lt_of_lt_of_le hid hreshaped.size) h)
  | leaf hknown h hleaf =>
    refine .leaf hsteps.stepped.known (hcovered hknown h) fun x hx => ?_
    rcases hsteps.stepped.link hknown hx with hx₁ | rfl
    · exact hleaf x hx₁
    · exact hsteps.stepped.consistent.ne_of_isParent hx rfl
  | operand hkind h => exact .operand hkind h

theorem compute_aborts (hkind : w.tree.kind id = .ok .raiseException) (hc : w.tree.Consistent)
    (hid : id.index < w.tree.nodes.size)
    (hrun : (computeNode id >>= applyComputed id) s w = .ok id' w') : w'.trace.abortive = true := by
  obtain ⟨c, w₁, hcompute, happly⟩ := reads_bind_eq_ok_iff.1 hrun
  have hreshaped := (preparing_computeNode id hc hcompute).reshaped
  have hsteps := Stepping.applyComputed c hreshaped.consistent (Nat.lt_of_lt_of_le hid hreshaped.size) happly
  exact hsteps.abortive (yields_computeNode_abortive hkind hcompute)

end Computations

end ReplaceM

end Specializer
