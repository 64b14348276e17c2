import Specializer.FixedPoint
import Specializer.Proofs.Replacement.Calls
import Specializer.Proofs.Replacement.SideEffects
import Specializer.Proofs.Replacement.StaticImport

/-!
# Computing nodes

What computing a node offers can be put in its place. Side effects that cannot be noticed are dropped, and the account
of each of them pays for the announcement; operations over constants become a constant, a raise or a reference. Imports
of modules and of names become hard ones, which fails only if a module is misplaced.
-/

namespace Specializer.Plan

open Specializer.Tree ReplaceM

variable {located : ModuleName → Prop} {s : Settings} {P : Plan} {t : Tree} {w : Workspace} {id parent : NodeId}
  {n : Node}

/-! ## Side effects -/

theorem slots_of_sideEffects {slots : List Slot} (h : checkSlots .sideEffects slots = .ok ()) :
    ∃ effects expression, slots = [.many effects, .filled expression] := by
  unfold checkSlots at h
  split at h
  · next hlen =>
    obtain ⟨a, b, rfl⟩ := List.length_eq_two.1 (show slots.length = 2 from hlen.symm)
    rcases a with a | effects
    · cases a <;> cases h
    · rcases b with (_ | expression) | _
      · cases h
      · exact ⟨effects, expression, rfl⟩
      · cases h
  · cases h

theorem inSlot_sideEffects {effects : List NodeId} {expression : NodeId} (hkind : n.kind = .sideEffects)
    (hslots : n.slots = [.many effects, .filled expression]) :
    n.inSlot "side_effects" = effects ∧ n.inSlot "expression" = [expression] ∧ n.children = effects ++ [expression] := by
  have hfirst : NodeKind.sideEffects.slotIndex? "side_effects" = some 0 := by decide
  have hsecond : NodeKind.sideEffects.slotIndex? "expression" = some 1 := by decide
  simp [Node.inSlot, Node.children, hkind, hslots, hfirst, hsecond, Slot.ids, Slot.filled]

/-- What is known after effects were dropped from a node of side effects. -/
structure Dropped (located : ModuleName → Prop) (P : Plan) (t : Tree) (id parent : NodeId) (count : Nat) (t' : Tree) :
    Prop where
  fits : P.Fits located t' none
  keeps : Keeps (P.level id + 1) P t P t'
  placed : Placed t' id parent
  bindings : t'.bindings = t.bindings
  weight : t'.weight P.credit + count ≤ t.weight P.credit

/-- A node of side effects stays in order whichever effects are left. -/
theorem Good.withEffects {t' : Tree} {effects : List NodeId} {expression : NodeId} (g : P.Good located t id n)
    (hkind : n.kind = .sideEffects) : P.Good located t' id { n with slots := [.many effects, .filled expression] } where
  complete := by
    rw [hkind]
    rfl
  pairs c hc := by
    have hnone : NodeKind.sideEffects.slotIndex? "pairs" = none := by decide
    simp [Node.inSlot, hkind, hnone] at hc
  owner hvar := by simp [hkind] at hvar
  located := g.located
  funded := g.funded
  call hcall := by simp [hkind] at hcall

section Discarding

variable {t' : Tree} {l effects : List NodeId} {expression x : NodeId} (h : P.Fits located t none)
  (hn : t.get? id = some n) (hin : P.Inside id) (hp : ∀ c ∈ l, t.IsParent c id) (hd : Discarded t t' id l)
include h hn hin hp

/-- What is as high as the node does not hang below an effect. -/
theorem Fits.not_below_effect (hle : P.level id ≤ P.level x) : ∀ c ∈ l, ¬ t.Below x c := by
  intro c hc hb
  have hu := h.child hn hin.1 ((h.built.consistent.isParent_iff hn).1 (hp c hc))
  have := hu.level
  have := (h.known_of_below hu.known hb).2
  omega

include hd

theorem Fits.keeps_discarded : Keeps (P.level id + 1) P t P t' := by
  refine ⟨hd.root, fun {x m} hm _ hle => ⟨⟨m.slots, ?_⟩, rfl, rfl⟩⟩
  have hxid : x ≠ id := by rintro rfl; omega
  rw [hd.node (h.not_below_effect hn hin hp (by omega)), hm]
  simp [hxid]

/-- What was on the accounts of the effects is free. -/
theorem Fits.weight_discarded (hnodup : l.Nodup) : t'.weight P.credit + l.length ≤ t.weight P.credit := by
  have hlive {c : NodeId} (hc : c ∈ l.toFinset) : ∃ m, t.get? c = some m :=
    (parent?_eq_some_iff.1 (hp c (List.mem_toFinset.1 hc))).imp fun _ => And.left
  have hone : ∀ c ∈ l.toFinset, 1 ≤ P.credit c := fun c hc => by
    obtain ⟨m, hm⟩ := hlive hc
    have hchild : c ∈ n.children := (h.built.consistent.isParent_iff hn).1 (hp c (List.mem_toFinset.1 hc))
    exact h.one_le_credit hm (h.inside_child hn hin hchild)
  have hleft : t'.handles ⊆ t.handles \ l.toFinset := by
    intro x hx
    obtain ⟨n', hn'⟩ := mem_handles.1 hx
    obtain ⟨hout, m, hm, -⟩ := hd.get?_eq_some hn'
    exact Finset.mem_sdiff.2 ⟨mem_handles.2 ⟨m, hm⟩, fun hxl => hout x (List.mem_toFinset.1 hxl) .refl⟩
  have hcount : l.length ≤ ∑ c ∈ l.toFinset, P.credit c := by
    simpa [List.toFinset_card_of_nodup hnodup] using Finset.card_nsmul_le_sum _ _ 1 hone
  calc t'.weight P.credit + l.length
      ≤ ∑ x ∈ t.handles \ l.toFinset, P.credit x + ∑ c ∈ l.toFinset, P.credit c :=
        Nat.add_le_add (Finset.sum_le_sum_of_subset hleft) hcount
    _ = t.weight P.credit := Finset.sum_sdiff fun c hc => mem_handles.2 (hlive hc)

theorem Fits.discarded (hbuilt : t'.Built) (hkind : n.kind = .sideEffects)
    (hslots : n.slots = [.many effects, .filled expression])
    (hget : t'.get? id = some { n with slots := [.many (effects.filter (· ∉ l)), .filled expression] }) :
    P.Fits located t' none := by
  refine h.of_shrink hbuilt hd.root (fun x n' hn' => ?_) fun i b hb => ⟨b, by rw [hd.bindings, hb], rfl⟩
  by_cases hx : x = id
  · subst hx
    obtain rfl := Option.some.inj (hget.symm.trans hn')
    refine ⟨n, hn, rfl, rfl, fun a ha => ?_, fun _ => .inr ((h.good hn hin).withEffects hkind)⟩
    simp only [Node.children, hslots, Slot.filled, List.flatMap_cons, List.mem_append] at ha ⊢
    exact ha.imp_left fun ha => (List.mem_filter.1 ha).1
  · obtain ⟨-, m, hm, rfl⟩ := hd.get?_eq_some hn'
    exact ⟨m, hm, rfl, rfl, fun a ha => by simpa [Node.children, hx] using ha, fun _ => .inl (if_neg hx)⟩

end Discarding

/-- Effects can be taken out and torn down, which frees their accounts. -/
theorem Fits.discardAll {l : List NodeId} (h : P.Fits located t none) (hplaced : Placed t id parent)
    (hn : t.get? id = some n) (hkind : n.kind = .sideEffects) (hnodup : l.Nodup)
    (hmem : ∀ c ∈ l, c ∈ n.inSlot "side_effects") :
    ∃ t', TreeM.discardAll l t = .ok () t' ∧ Dropped located P t id parent l.length t' ∧
      ∃ n', t'.get? id = some n' ∧ n'.kind = .sideEffects := by
  have hcons := h.built.consistent
  have hin := h.inside_of_reachable hplaced.reachable nofun
  obtain ⟨effects, expression, hslots⟩ := slots_of_sideEffects (hkind ▸ (h.good hn hin).complete)
  obtain ⟨heffects, -, -⟩ := inSlot_sideEffects hkind hslots
  have hsub : ∀ c ∈ l, c ∈ effects := fun c hc => heffects ▸ hmem c hc
  have hp : ∀ c ∈ l, t.IsParent c id := fun c hc => (hcons.held_sideEffects hn hslots).2.2.2 c (hsub c hc)
  obtain ⟨t', hrun, hd⟩ := hcons.discardAll_ok hnodup hp
  have hbuilt : t'.Built := (Builds.discardAll l hrun).1 h.built
  obtain ⟨m, hm, hget⟩ := (hd.cleaned hcons hn hslots hsub).holder
  obtain rfl : m = n := Option.some.inj (hm.symm.trans hn)
  have hkeeps := h.keeps_discarded hn hin hp hd
  refine ⟨t', hrun, ⟨h.discarded hn hin hp hd hbuilt hkind hslots hget, hkeeps, ⟨?_, ?_⟩, hd.bindings,
    h.weight_discarded hn hin hp hd hnodup⟩, _, hget, hkind⟩
  · obtain ⟨m', hm', hmp⟩ := parent?_eq_some_iff.1 hplaced.held
    obtain rfl : m' = m := Option.some.inj (hm'.symm.trans hn)
    exact parent?_eq_some_iff.2 ⟨_, hget, hmp⟩
  · obtain ⟨_, -, hup⟩ := h.under hplaced.held (h.known_of_reachable hplaced.reach)
    exact hkeeps.reachable h hplaced.reach hup.level

/-- A replacement may start from a later tree than the one its outcome is compared with. -/
theorem Ready.rebase {P₀ P₁ : Plan} {t₀ t₁ : Tree} {pending free : List NodeId} {weight : Nat}
    (h : Ready located P₁ t₁ P t id parent pending free weight) (hf : P₀.Fits located t₀ none)
    (hkeeps : Keeps (P₀.level id + 1) P₀ t₀ P₁ t₁) (hlevel : P₁.level id = P₀.level id)
    (hscopes : P₁.scopes id = P₀.scopes id) (hbindings : t₁.bindings = t₀.bindings) :
    Ready located P₀ t₀ P t id parent pending free weight :=
  { h with
    start := hf
    keeps := hkeeps.trans hf (hlevel ▸ h.keeps)
    level := h.level.trans hlevel
    scopes := h.scopes.trans hscopes
    bindings := h.bindings.trans hbindings }

/-- Once no effects are left, the expression can be taken out to stand in the place of the node. -/
theorem Dropped.takeExpression {t' : Tree} {count : Nat} (hleft : Dropped located P t id parent count t')
    (h : P.Fits located t none) (hn : t'.get? id = some n) (hkind : n.kind = .sideEffects) :
    ∃ e t'' P' pending free weight, TreeM.detachSlot id "expression" t' = .ok (some e) t'' ∧
      Ready located P t P' t'' id parent pending free weight ∧ e ∈ free ∧ weight + 1 ≤ t'.weight P.credit := by
  have hcons := hleft.fits.built.consistent
  have hin := hleft.fits.inside_of_reachable hleft.placed.reachable nofun
  obtain ⟨e, hchild, hslot⟩ := hcons.required_ok hn (hleft.fits.good hn hin).complete "expression" (by rw [hkind]; decide)
  have hmem : e ∈ n.children := Node.mem_children_of_inSlot (show e ∈ n.inSlot "expression" by simp [hslot])
  have hu := hleft.fits.child hn hin.1 hmem
  have hp : t'.IsParent e id := (hcons.isParent_iff hn).2 hmem
  obtain ⟨weight, hready, hbudget⟩ := Ready.ofNode hleft.fits hleft.placed hn (by rw [hkind]; decide)
  rw [hkind, show NodeKind.sideEffects.changes = 1 from rfl] at hbudget
  have heid : e ∉ [id] := by simpa using hcons.ne_of_isParent hp
  have hunspent : ¬ P.spent e := (hleft.fits.inside_child hn hin hmem).2
  obtain ⟨t'', hdetach, hready', -⟩ := (hready.rebase h hleft.keeps rfl rfl hleft.bindings).detachFrom hp
    (Or.inr (by simp)) ⟨hu.known, not_or.2 ⟨hunspent, heid⟩⟩ hu.level
    fun scope hs => hu.scopes_of_not_scope (by rw [hkind]; rfl) hs
  refine ⟨e, t'', _, _, _, weight, ?_, hready', by simp, hbudget⟩
  rw [detachSlot_of_child hchild, run_map_of_ok hdetach]

/-- **What is left of side effects can be put in their place.** -/
theorem computeSideEffects_ensures (h : P.Fits located w.tree none) (hplaced : Placed w.tree id parent)
    (hn : w.tree.get? id = some n) (hkind : n.kind = .sideEffects) :
    Ensures located s (onTree (TreeM.computeSideEffects id)) w (Offered located P w id parent) := by
  have hcons := h.built.consistent
  have hchildren := hcons.childrenIn_ok hn "side_effects" (i := 0) (by rw [hkind]; decide)
  -- which effects are dropped
  have hlive : ∀ c ∈ n.inSlot "side_effects", ∃ m, w.tree.get? c = some m := fun c hc =>
    (hcons.held hn (Node.mem_children_of_inSlot hc)).imp fun _ => And.left
  have hfilter := hcons.filterM_isObservable hlive
  generalize hdropped : (n.inSlot "side_effects").filter (w.tree.Unnoticed ·) = dropped at hfilter
  by_cases hempty : dropped.isEmpty = true
  · have hrun : TreeM.computeSideEffects id w.tree = .ok (.unchanged id) w.tree := by
      rw [TreeM.computeSideEffects, run_get_bind, run_check_ok hchildren, run_bind_of_ok hfilter, if_pos hempty]
      rfl
    exact .of_ok (onTree_ok hrun) (.nothing rfl (.refl _ h) hplaced (Nat.le_refl _))
  have hlen : 0 < dropped.length := List.length_pos_iff.2 (by simpa using hempty)
  have hnodup : dropped.Nodup := hdropped ▸ (hcons.nodup_inSlot hn "side_effects").filter _
  obtain ⟨t', hdiscard, hleft, n', hn', hkind'⟩ := h.discardAll hplaced hn hkind hnodup fun c hc => by
    rw [← hdropped] at hc
    exact (List.mem_filter.1 hc).1
  have hweight := hleft.weight
  have hquery : TreeM.query (·.childrenIn id "side_effects") t' = .ok (n'.inSlot "side_effects") t' :=
    run_query_ok (hleft.fits.built.consistent.childrenIn_ok hn' "side_effects" (i := 0) (by rw [hkind']; decide))
  by_cases hmore : (n'.inSlot "side_effects").isEmpty = true
  · obtain ⟨e, t'', P', pending, free, weight, hdetach, hready, he, hbudget⟩ := hleft.takeExpression h hn' hkind'
    have hrun : TreeM.computeSideEffects id w.tree = .ok (.changed e .expression
        "Side effects removed, only the expression remains.") t'' := by
      rw [TreeM.computeSideEffects, run_get_bind, run_check_ok hchildren, run_bind_of_ok hfilter, if_neg hempty,
        run_bind_of_ok hdiscard, run_bind_of_ok hquery, if_pos hmore, run_bind_of_ok hdetach]
      rfl
    exact .of_ok (onTree_ok hrun) (.other rfl hready he rfl (by omega))
  · have hrun : TreeM.computeSideEffects id w.tree = .ok (.changed id .expression
        s!"Removed {dropped.length} side effect free expressions.") t' := by
      rw [TreeM.computeSideEffects, run_get_bind, run_check_ok hchildren, run_bind_of_ok hfilter, if_neg hempty,
        run_bind_of_ok hdiscard, run_bind_of_ok hquery, if_neg hmore]
      rfl
    refine .of_ok (onTree_ok hrun) (.same rfl hleft.fits hleft.keeps hleft.placed (Nat.le_refl _) rfl ?_)
    dsimp only
    omega

/-! ## Offers -/

theorem Offered.unchanged (h : P.Fits located w.tree none) (hplaced : Placed w.tree id parent) (trace : Trace) :
    Offered located P w id parent (.unchanged id) { w with trace } :=
  .nothing rfl ⟨h, .refl _ P w.tree, Nat.le_refl _, Nat.le_refl _⟩ hplaced (Nat.le_refl _)

/-- What is offered does not depend on the trace. -/
theorem Offered.of_trace {w₀ : Workspace} {c : Computed} (h : Offered located P w₀ id parent c w) (trace : Trace) :
    Offered located P w₀ id parent c { w with trace } := by
  cases h with
  | nothing hc advance placed level =>
    exact .nothing hc ⟨advance.fits, advance.keeps, advance.grows, advance.budget⟩ placed level
  | same hc fits keeps placed level changes budget => exact .same hc fits keeps placed level changes budget
  | other hc ready mem changes budget => exact .other hc ready mem changes budget

/-- A new leaf can be offered for a node that has one change more on its account. -/
theorem Fits.offer (h : P.Fits located w.tree none) (hplaced : Placed w.tree id parent) (hn : w.tree.get? id = some n)
    (kind : NodeKind) (payload : Payload) (source : SourceRef) (hpaid : kind.changes + 1 ≤ n.kind.changes)
    (hslots : kind.slots = []) (hform : payload.form = kind.payloadForm) (hvar : ∀ v, payload ≠ .var v)
    (hlocated : ∀ spec, payload = .hardImport spec → located spec.module) :
    ∃ new t', TreeM.newNode kind source payload [] w.tree = .ok new t' ∧ (∃ m, t'.get? new = some m ∧ m.kind = kind) ∧
      ∀ (trace : Trace) (tags : ChangeTags) (message : String),
        Offered located P w id parent (.changed new tags message) { w with tree := t', trace } := by
  have hkind : n.kind ≠ .keyValuePair ∧ n.kind ≠ .attributeLookup := by
    have hone := NodeKind.one_le_changes kind
    refine ⟨fun hk => ?_, fun hk => ?_⟩
    all_goals
      rw [hk] at hpaid
      exact absurd (Nat.le_trans (Nat.add_le_add_right hone 1) hpaid) (by decide)
  obtain ⟨weight, hready, hweight⟩ := Ready.ofNode h hplaced hn hkind
  obtain ⟨t', hmake, hready', -, hget⟩ := hready.makeLeaf kind payload kind.changes source hslots hform hvar hlocated
    (Nat.le_refl _)
  refine ⟨_, t', hmake, ⟨_, hget, rfl⟩, fun trace tags message => .other rfl hready' ?_ rfl ?_⟩
  · simp [Computed.changed]
  · omega

/-! ## Operations over constants -/

theorem constantOperands_ok (h : t.Consistent) (hn : t.get? id = some n) : ∀ specs : List SlotSpec,
    (∀ spec ∈ specs, n.kind.isSingle spec.name = true) → ∃ values?, t.constantOperands id specs = .ok values?
  | [], _ => ⟨_, rfl⟩
  | spec :: specs, hspecs => by
    obtain ⟨c?, hchild, -⟩ := h.child_ok hn spec.name (hspecs spec (by simp))
    obtain ⟨values?, hrest⟩ := constantOperands_ok h hn specs fun spec' hs => hspecs spec' (List.mem_cons_of_mem spec hs)
    simp only [constantOperands, hchild, ok_bind, hrest, except_pure]
    split
    · exact ⟨_, rfl⟩
    · split <;> exact ⟨_, rfl⟩

theorem constantEntries_ok (h : t.Consistent) : ∀ {pairs : List NodeId},
    (∀ pair ∈ pairs, ∃ m, t.get? pair = some m ∧ m.kind = .keyValuePair ∧ checkSlots m.kind m.slots = .ok ()) →
    ∃ entries?, t.constantEntries pairs = .ok entries?
  | [], _ => ⟨_, rfl⟩
  | pair :: rest, hpairs => by
    obtain ⟨m, hm, hkind, -⟩ := hpairs pair (by simp)
    obtain ⟨key?, hkey, -⟩ := h.child_ok hm "key" (by rw [hkind]; decide)
    obtain ⟨value?, hvalue, -⟩ := h.child_ok hm "value" (by rw [hkind]; decide)
    obtain ⟨entries?, hrest⟩ := constantEntries_ok h fun q hq => hpairs q (List.mem_cons_of_mem pair hq)
    simp only [constantEntries, hkey, hvalue, hrest, ok_bind, except_pure]
    split <;> exact ⟨_, rfl⟩

/-- The kinds that are evaluated: their operands can be read one by one, and they have a change and a leaf on their
account. -/
def isFoldable (kind : NodeKind) : Bool :=
  2 ≤ kind.changes && (kind == .builtinDict || kind.slots.all fun spec => kind.isSingle spec.name)

theorem Fits.constantArguments_ok (h : P.Fits located t none) (hn : t.get? id = some n) (hin : P.Inside id)
    (hfold : isFoldable n.kind = true) : ∃ args?, t.constantArguments id = .ok args? := by
  have hc := h.built.consistent
  rw [constantArguments, kind_ok hn, ok_bind]
  simp only [isFoldable, Bool.and_eq_true, Bool.or_eq_true, beq_iff_eq, List.all_eq_true] at hfold
  split
  · next hkind =>
    obtain ⟨values?, hvalues⟩ := constantOperands_ok hc hn [⟨"pos_arg", .optional⟩] (by rw [hkind]; decide)
    rw [hvalues, ok_bind]
    cases values? with
    | none => exact ⟨_, rfl⟩
    | some values =>
      obtain ⟨entries?, hentries⟩ := constantEntries_ok hc (h.pairs_ok hn hin)
      simp only [hc.childrenIn_ok hn "pairs" (i := 1) (by rw [hkind]; decide), ok_bind, hentries, except_pure]
      exact ⟨_, rfl⟩
  · next hkind =>
    obtain ⟨values?, hvalues⟩ := constantOperands_ok hc hn n.kind.slots (hfold.2.resolve_left hkind)
    rw [hvalues]
    exact ⟨_, rfl⟩

theorem foldBuiltin_ensures (h : P.Fits located w.tree none) (hplaced : Placed w.tree id parent)
    (hn : w.tree.get? id = some n) (hfold : isFoldable n.kind = true) (signature : Signature) :
    Ensures located s (foldBuiltin id signature) w (Offered located P w id parent) := by
  have hunchanged : Offered located P w id parent (.unchanged id) w :=
    .unchanged h hplaced w.trace
  have hpaid : 1 + 1 ≤ n.kind.changes := by
    simp only [isFoldable, Bool.and_eq_true, decide_eq_true_eq] at hfold
    exact hfold.1
  unfold foldBuiltin
  split
  · exact .ret hunchanged
  obtain ⟨args?, hargs⟩ := h.constantArguments_ok hn (h.inside_of_reachable hplaced.reachable nofun) hfold
  refine .bind_ok (ask_ok hargs) ?_
  cases args? with
  | none => exact .ret hunchanged
  | some args =>
  refine .bind_ok (ask_ok (source_ok hn)) (.bind_ok version_ok ?_)
  split
  · next value _ =>
    obtain ⟨new, t', hmake, -, hoffer⟩ := h.offer hplaced hn .constantRef (.constant value) n.source hpaid rfl rfl nofun
      nofun
    have hrun : TreeM.makeConstant value n.source w.tree = .ok new t' := hmake
    exact .bind_ok (onTree_ok hrun) (.ret (hoffer _ _ _))
  · next raised _ =>
    obtain ⟨new, t', hmake, -, hoffer⟩ := h.offer hplaced hn .raiseException (.raise raised) n.source hpaid rfl rfl nofun
      nofun
    have hrun : TreeM.makeRaise raised n.source w.tree = .ok new t' := hmake
    refine .bind_ok (recordExit_ok raised.kind n.source) ?_
    exact .bind_ok (onTree_ok hrun) (.ret (hoffer _ _ _))
  · exact .ret hunchanged

theorem foldType_ensures (h : P.Fits located w.tree none) (hplaced : Placed w.tree id parent)
    (hn : w.tree.get? id = some n) (hkind : n.kind = .builtinType1) :
    Ensures located s (foldType id) w (Offered located P w id parent) := by
  have hunchanged : Offered located P w id parent (.unchanged id) w :=
    .unchanged h hplaced w.trace
  obtain ⟨c?, hchild, -⟩ := h.built.consistent.child_ok hn "value" (by rw [hkind]; decide)
  refine .bind_ok (ask_ok hchild) (.bind_ok tree_ok ?_)
  cases c?.bind w.tree.constant? with
  | none => exact .ret hunchanged
  | some value =>
  dsimp only
  split
  · exact .ret hunchanged
  refine .bind_ok version_ok (.bind_ok version_ok ?_)
  split
  · exact .ret hunchanged
  obtain ⟨new, t', hmake, -, hoffer⟩ := h.offer hplaced hn .builtinRef (.name (value.typeName s.options.version)) n.source
    (by rw [hkind]; decide) rfl rfl nofun nofun
  have hrun : TreeM.makeBuiltinRef (value.typeName s.options.version) n.source w.tree = .ok new t' := hmake
  exact .bind_ok (ask_ok (source_ok hn)) (.bind_ok (onTree_ok hrun) (.ret (hoffer _ _ _)))

/-! ## Imports -/

theorem foldImport_ensures (h : P.Fits located w.tree none) (hplaced : Placed w.tree id parent)
    (hn : w.tree.get? id = some n) (hkind : n.kind = .builtinImport) :
    Ensures located s (foldImport id) w (Offered located P w id parent) := by
  have hunchanged : Offered located P w id parent (.unchanged id) w := .unchanged h hplaced w.trace
  have hc := h.built.consistent
  have operand (slot : String) (hsingle : NodeKind.builtinImport.isSingle slot = true) :=
    importOperand_ok (s := s) hc hn slot (hkind ▸ hsingle)
  refine .bind_ok (hasSideEffects_ok hc hn "globals" (by rw [hkind]; decide)) ?_
  split
  · exact .ret hunchanged
  refine .bind_ok (hasSideEffects_ok hc hn "locals" (by rw [hkind]; decide)) ?_
  split
  · exact .ret hunchanged
  refine .bind_ok (operand "name" (by decide)) ?_
  split
  · next text _ =>
    refine .bind_ok (operand "fromlist" (by decide)) ?_
    cases importedNames? (w.tree.importOperand id "fromlist") with
    | none => exact .ret hunchanged
    | some names =>
    refine .bind_ok version_ok (.bind_ok (operand "level" (by decide)) ?_)
    cases importLevel? s.options.version (w.tree.importOperand id "level") with
    | none => exact .ret hunchanged
    | some number =>
    obtain ⟨new, t', hmake, -, hoffer⟩ := h.offer hplaced hn .importModule (.moduleImport ⟨⟨text⟩, names, number⟩) n.source
      (by rw [hkind]; decide) rfl rfl nofun nofun
    exact .bind_ok (ask_ok (source_ok hn)) (.bind_ok (onTree_ok hmake) (.ret (hoffer _ _ _)))
  · exact .ret hunchanged

/-- Hard modules that are found under their own name are among those known to be somewhere. -/
def Knows (located : ModuleName → Prop) (s : Settings) : Prop :=
  ∀ module package? level finding, HardImport.isHardModule module = true →
    s.locator.locate module package? level = (module, finding) → finding ≠ .notFound → located module

/-- A hard import can be offered, unless its module is misplaced. -/
theorem Fits.offerHard (h : P.Fits located w.tree none) (hplaced : Placed w.tree id parent)
    (hn : w.tree.get? id = some n) (hpaid : 1 + 1 ≤ n.kind.changes) (module : ModuleName) (name? : Option String)
    (kind : NodeKind) (source : SourceRef) (hkind : kind.payloadForm = .hardImport) (hslots : kind.slots = [])
    (hchanges : kind.changes = 1) (hmodule : located module) :
    Ensures located s (onCompile (do
      let finding ← HardImport.locate s.locator module
      CompileM.onTree (TreeM.newNode kind source (.hardImport ⟨module, name?, finding⟩) []))) w fun new w' =>
        w'.changes = w.changes ∧ (∃ m, w'.tree.get? new = some m ∧ m.kind = kind) ∧
          ∀ (trace : Trace) (tags : ChangeTags) (message : String),
            Offered located P w id parent (.changed new tags message) { w' with trace } := by
  by_cases hfound : (s.locator.locate module none 0).2.isFound = true
  · obtain ⟨new, t', hmake, hget, hoffer⟩ := h.offer hplaced hn kind
      (.hardImport ⟨module, name?, (s.locator.locate module none 0).2⟩) source (hchanges ▸ hpaid) hslots hkind.symm nofun
      (by rintro _ ⟨⟩; exact hmodule)
    have hlocate : HardImport.locate s.locator module w.tree =
        .ok (s.locator.locate module none 0).2 w.tree := by
      rw [HardImport.locate, if_pos hfound]
      rfl
    have hrun : onCompile (do
        let finding ← HardImport.locate s.locator module
        CompileM.onTree (TreeM.newNode kind source (.hardImport ⟨module, name?, finding⟩) [])) s w =
          .ok new { w with tree := t' } := by
      simp only [onCompile, run_bind_of_ok hlocate, CompileM.onTree, hmake]
    exact .of_ok hrun ⟨rfl, hget, hoffer⟩
  · have hlocate : HardImport.locate s.locator module w.tree =
        .error (.internal s!"hard import of '{module.text}' cannot be located") w.tree := by
      rw [HardImport.locate, if_neg hfound]
      rfl
    simp only [Ensures, onCompile, run_bind_of_error hlocate]
    exact ⟨module, hmodule, hfound⟩

/-- What is noted about a node changes nothing that a plan speaks of. -/
theorem setCapabilities_ensures (h : P.Fits located w.tree none) (hplaced : Placed w.tree id parent)
    (capabilities : Capabilities) :
    ∃ t', TreeM.setCapabilities id capabilities w.tree = .ok () t' ∧
      Offered located P w id parent (.unchanged id) { w with tree := t' } := by
  obtain ⟨n, hn⟩ := hplaced.live
  have hrun : TreeM.setCapabilities id capabilities w.tree =
      .ok () (w.tree.modifyNode id fun n => { n with override := some capabilities }) := by
    rw [TreeM.setCapabilities, run_get_bind, run_check_ok (node_of_get? hn)]
    rfl
  have hbuilt := h.built.of_run (.setCapabilities id capabilities) hrun
  generalize htree : (w.tree.modifyNode id fun n => { n with override := some capabilities }) = t' at hrun hbuilt
  have hget (x : NodeId) :
      t'.get? x = (w.tree.get? x).map fun m => if x = id then { m with override := some capabilities } else m := by
    rw [← htree, get?_modifyNode]
    split <;> simp
  have hback {x : NodeId} {m' : Node} (hm' : t'.get? x = some m') : ∃ m, w.tree.get? x = some m ∧
      m'.kind = m.kind ∧ m'.payload = m.payload ∧ m'.slots = m.slots := by
    rw [hget] at hm'
    obtain ⟨m, hm, rfl⟩ := Option.map_eq_some_iff.1 hm'
    exact ⟨m, hm, by split <;> simp⟩
  have hroot : t'.root = w.tree.root := by rw [← htree]; rfl
  have hkeeps : Keeps (P.level id + 1) P w.tree P t' := by
    refine ⟨hroot, fun {x m} hm hx hle => ⟨⟨m.slots, ?_⟩, rfl, rfl⟩⟩
    have hxid : x ≠ id := by rintro rfl; omega
    rw [hget, hm]
    simp [hxid]
  refine ⟨t', hrun, .nothing rfl ⟨?_, hkeeps, Nat.le_refl _, ?_⟩ ⟨?_, ?_⟩ (Nat.le_refl _)⟩
  · refine h.of_shrink hbuilt hroot (fun x m' hm' => ?_) fun i b hb => ⟨b, by rw [← htree]; exact hb, rfl⟩
    obtain ⟨m, hm, hkind, hpayload, hslots⟩ := hback hm'
    exact ⟨m, hm, hkind, hpayload, fun c hc => by simpa [Node.children, hslots] using hc, fun _ => Or.inl hslots⟩
  · refine Nat.add_le_add_left (weight_le_of_handles_subset (handles_subset fun x m' hm' => ?_)) _
    obtain ⟨m, hm, -⟩ := hback hm'
    exact ⟨m, hm⟩
  · obtain ⟨m, hm, hmp⟩ := parent?_eq_some_iff.1 hplaced.held
    exact parent?_eq_some_iff.2 ⟨_, by rw [hget, hm]; rfl, by simpa using hmp⟩
  · obtain ⟨_, -, hu⟩ := h.under hplaced.held (h.known_of_reachable hplaced.reach)
    exact hkeeps.reachable h hplaced.reach hu.level

theorem computeImportModule_ensures (h : P.Fits located w.tree none) (hplaced : Placed w.tree id parent)
    (hn : w.tree.get? id = some n) (hkind : n.kind = .importModule) (hknows : Knows located s) (spec : ImportSpec) :
    Ensures located s (computeImportModule id spec n.source) w (Offered located P w id parent) := by
  unfold computeImportModule
  refine .bind_ok settings_ok (.bind_ok tree_ok ?_)
  dsimp only
  split
  · exact .bind_ok (recordExit_ok _ _) (.ret (.unchanged h hplaced _))
  next hfinding =>
  split
  · next hhard =>
    have hmodule : located (s.locator.locate spec.module w.tree.parentPackage? spec.level).1 := by
      have hsame : (s.locator.locate spec.module w.tree.parentPackage? spec.level).1 = spec.module := hhard.1
      rw [hsame]
      exact hknows _ w.tree.parentPackage? spec.level _ (hsame ▸ hhard.2) (Prod.ext hsame rfl) hfinding
    refine (h.offerHard hplaced hn (by rw [hkind]; decide) _ none .importModuleHard n.source rfl rfl rfl hmodule).bind ?_
    rintro new w' ⟨-, -, hoffer⟩
    exact .ret (hoffer w'.trace _ _)
  split
  · have hcapabilities : w.tree.capabilities id = .ok n.capabilities := by
      rw [Tree.capabilities, node_of_get? hn]
      rfl
    refine .bind_ok (ask_ok hcapabilities) ?_
    split
    · exact .ret (.unchanged h hplaced w.trace)
    · obtain ⟨t', hset, hoffer⟩ := setCapabilities_ensures h hplaced .quietImport
      exact .bind_ok (onTree_ok hset) (.ret hoffer)
  · exact .bind_ok (recordExit_ok _ _) (.ret (.unchanged h hplaced _))

theorem computeImportName_ensures (h : P.Fits located w.tree none) (hplaced : Placed w.tree id parent)
    (hn : w.tree.get? id = some n) (hkind : n.kind = .importName) (name : String) :
    Ensures located s (computeImportName id name n.source) w (Offered located P w id parent) := by
  have hc := h.built.consistent
  have hin := h.inside_of_reachable hplaced.reachable nofun
  obtain ⟨m, hchild, hslot⟩ := hc.required_ok hn (h.good hn hin).complete "module" (by rw [hkind]; decide)
  have hmem : m ∈ n.children := Node.mem_children_of_inSlot (show m ∈ n.inSlot "module" by simp [hslot])
  obtain ⟨nm, hnm, -⟩ := hc.held hn hmem
  have hmin : P.Inside m := h.inside_child hn hin hmem
  have hpayload : w.tree.payload m = .ok nm.payload := by
    rw [Tree.payload, node_of_get? hnm]
    rfl
  refine .bind_ok (ask_ok hchild) (.bind_ok (ask_ok hpayload) (.bind_ok pure_ok ?_))
  dsimp only [Option.bind_some]
  cases hhard : hardModule? nm.payload with
  | none => exact .bind_ok (recordExit_ok _ _) (.ret (.unchanged h hplaced _))
  | some module =>
    have hmodule : located module := by
      unfold hardModule? at hhard
      split at hhard
      · next module' finding hp =>
        obtain rfl : module' = module := Option.some.inj hhard
        exact (h.good hnm hmin).located _ hp
      · cases hhard
    have hpaid : 1 + 1 ≤ n.kind.changes := by rw [hkind]; decide
    have hexists : ∀ b : Bool,
        (if b then NodeKind.importModuleNameHardExists else .importModuleNameHardMaybeExists).payloadForm = .hardImport ∧
        (if b then NodeKind.importModuleNameHardExists else .importModuleNameHardMaybeExists).slots = [] ∧
        (if b then NodeKind.importModuleNameHardExists else .importModuleNameHardMaybeExists).changes = 1 := by
      decide
    obtain ⟨hform, hslots, hchanges⟩ := hexists (HardImport.isKnownName s.options.version module name)
    refine .bind_ok settings_ok (.bind_ok version_ok ?_)
    refine (h.offerHard hplaced hn hpaid module (some name) _ n.source hform hslots hchanges hmodule).bind ?_
    rintro new w' ⟨-, ⟨m', hm', -⟩, hoffer⟩
    refine .bind_ok (ask_ok (kind_ok hm')) ?_
    split
    · exact .bind_ok (recordExit_ok _ _) (.ret (hoffer _ _ _))
    · exact .ret (hoffer w'.trace _ _)

/-! ## The dispatch -/

theorem computeNode_ensures (h : P.Fits located w.tree none) (hplaced : Placed w.tree id parent)
    (hknows : Knows located s) : Ensures located s (computeNode id) w (Offered located P w id parent) := by
  obtain ⟨n, hn⟩ := hplaced.live
  refine .bind_ok (ask_ok (node_of_get? hn)) ?_
  split
  · split
    · exact .bind_ok (recordExit_ok _ _) (.bind_ok abort_ok (.ret (.unchanged h hplaced _)))
    · exact .bind_ok abort_ok (.ret (.unchanged h hplaced _))
  · next hkind => exact computeSideEffects_ensures h hplaced hn hkind
  · exact .bind_ok (recordExit_ok _ _) (.ret (.unchanged h hplaced _))
  · next hkind =>
    refine (foldBuiltin_ensures h hplaced hn (by rw [hkind]; decide) Signature.range).bind fun c w' hoffer => ?_
    split
    · exact .ret hoffer
    · exact .bind_ok (recordExit_ok _ _) (.ret (hoffer.of_trace _))
  · next hkind =>
    split
    · next spec _ => exact computeImportModule_ensures h hplaced hn hkind hknows spec
    · exact .ret (.unchanged h hplaced w.trace)
  · next hkind =>
    split
    · next name _ _ => exact computeImportName_ensures h hplaced hn hkind name
    · exact .ret (.unchanged h hplaced w.trace)
  · exact .bind_ok (recordExit_ok _ _) (.ret (.unchanged h hplaced _))
  · split
    · exact .bind_ok (recordExit_ok _ _) (.ret (.unchanged h hplaced _))
    · exact .ret (.unchanged h hplaced w.trace)

/-- A handler offers something for every operation of a kind. -/
structure Folds (located : ModuleName → Prop) (s : Settings) (kind : NodeKind) (handler : FoldHandler) : Prop where
  ensures : ∀ {P id parent n} {w : Workspace}, P.Fits located w.tree none → Placed w.tree id parent →
    w.tree.get? id = some n → n.kind = kind → Ensures located s (handler id) w (Offered located P w id parent)

theorem folds_foldByKey {kind : NodeKind} (hfold : isFoldable kind = true) (key : String) :
    Folds located s kind (foldByKey key) := by
  refine ⟨fun h hplaced hn hkind => ?_⟩
  unfold foldByKey
  split
  · next signature _ => exact foldBuiltin_ensures h hplaced hn (hkind ▸ hfold) signature
  · exact .ret (.unchanged h hplaced _)

theorem folds_of_lookup? (hknows : Knows located s) {kind : NodeKind} {key : String} {handler : FoldHandler}
    (hkey : kind.builtinKey? = some key) (h : foldHandlers.lookup? key = some handler) :
    Folds located s kind handler := by
  have htype : ∀ kind ∈ NodeKind.all, kind.builtinKey? = some "type1" → kind = .builtinType1 := by decide
  have himport : ∀ kind ∈ NodeKind.all, kind.builtinKey? = some "import" → kind = .builtinImport := by decide
  have hfold : ∀ kind ∈ NodeKind.all, ∀ key ∈ ["chr", "ord", "bin", "oct", "hex", "len", "tuple", "list", "dict", "float",
      "str", "bool", "int", "long"], kind.builtinKey? = some key → isFoldable kind = true := by decide
  refine DispatchTable.of_lookup? (t := foldHandlers)
    (p := fun e => ∀ kind : NodeKind, kind.builtinKey? = some e.1 → Folds located s kind e.2)
    (DispatchTable.forall_ofList ?_) (fun _ hf => nomatch (DispatchTable.fallback_ofList _).symm.trans hf) h kind hkey
  rw [List.forall_mem_append, List.forall_mem_map]
  refine ⟨?_, fun key hmem kind hk => folds_foldByKey (hfold kind kind.mem_all key hmem hk) key⟩
  simp only [List.forall_mem_cons]
  refine ⟨fun kind hk => ⟨fun hf hp hn hkind => ?_⟩, fun kind _ => ⟨fun hf hp _ _ => ?_⟩,
    fun kind hk => ⟨fun hf hp hn hkind => ?_⟩, by simp⟩
  · exact foldType_ensures hf hp hn (hkind.trans (htype kind kind.mem_all hk))
  · exact computeNode_ensures hf hp hknows
  · exact foldImport_ensures hf hp hn (hkind.trans (himport kind kind.mem_all hk))

theorem foldOperation_ensures (h : P.Fits located w.tree none) (hplaced : Placed w.tree id parent)
    (hknows : Knows located s) : Ensures located s (foldOperation id) w (Settled located P w id parent) := by
  obtain ⟨n, hn⟩ := hplaced.live
  refine .bind_ok (ask_ok (kind_ok hn)) ?_
  cases hkey : n.kind.builtinKey? with
  | none => exact .ret (.refl h hplaced)
  | some key =>
  dsimp only
  cases hhandler : foldHandlers.lookup? key with
  | none => exact .ret (.refl h hplaced)
  | some handler =>
  exact ((folds_of_lookup? hknows hkey hhandler).ensures h hplaced hn rfl).bind fun _ _ hoffer => hoffer.applyComputed

theorem enter_ensures (h : P.Fits located w.tree none) (hplaced : Placed w.tree id parent) (hknows : Knows located s)
    (visitor : Visitor) : Ensures located s (visitor.enter id) w (Settled located P w id parent) := by
  cases visitor with
  | criticalBuiltins => exact replaceCriticalBuiltin_ensures h hplaced
  | optionalBuiltins => exact replaceOptionalBuiltin_ensures h hplaced
  | exceptionNames => exact replaceName_ensures h hplaced
  | constantFolding => exact foldOperation_ensures h hplaced hknows

end Specializer.Plan
