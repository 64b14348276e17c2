import Specializer.Proofs.Replacement.Repose
import Specializer.Proofs.Replacement.SideEffects

/-!
# Nodes that are computed again

Computing a node either announces a change or leaves the node in its place. In the second case the only thing it may have
done is to note that the node itself is an import that runs no code, and computing the node once more does nothing
(`compute_quiet`). That stays true whatever is learnt about nodes that are not within it.
-/

namespace Specializer

/-- All side effects of a node can be noticed. -/
def Tree.KeepsEffects (t : Tree) (id : NodeId) : Prop :=
  ∃ effects, t.childrenIn id "side_effects" = .ok effects ∧ ∀ effect ∈ effects, t.isObservable effect = .ok true

namespace ReplaceM

open Specializer.Tree

variable {s : Settings} {t : Tree} {w w' : Workspace} {id id' unit : NodeId} {n : Node} {c : Computed}

theorem Rests.andThen {α β : Type} {x : ReplaceM α} {f : α → ReplaceM β} {a : α} {b : β} {aborts : Bool}
    (hx : Rests s t x a false) (hf : Rests s t (f a) b aborts) : Rests s t (x >>= f) b aborts := by
  simpa using hx.bind hf

/-! ## Side effects -/

/-- Nothing is dropped exactly if everything can be noticed. -/
theorem computeSideEffects_cases (hc : t.Consistent) (hn : t.get? id = some n) (hkind : n.kind = .sideEffects) :
    (t.KeepsEffects id ∧ TreeM.computeSideEffects id t = .ok (.unchanged id) t) ∨
      (¬ t.KeepsEffects id ∧ ∀ c t', TreeM.computeSideEffects id t = .ok c t' → c.change ≠ none) := by
  have hslot : n.kind.slotIndex? "side_effects" = some 0 := by rw [hkind]; decide
  have heffects := hc.childrenIn_ok hn "side_effects" hslot
  have hlive : ∀ effect ∈ n.inSlot "side_effects", ∃ m, t.get? effect = some m := fun effect heffect =>
    (hc.held hn (Node.mem_children_of_inSlot heffect)).imp fun _ => And.left
  have hdropped := hc.filterM_isObservable hlive
  have hkeeps : t.KeepsEffects id ↔ (n.inSlot "side_effects").filter (t.Unnoticed ·) = [] := by
    simp only [KeepsEffects, heffects, Except.ok.injEq, exists_eq_left', List.filter_eq_nil_iff, decide_eq_true_eq]
    refine forall₂_congr fun effect heffect => ?_
    obtain ⟨m, hm⟩ := hlive effect heffect
    exact (hc.not_unnoticed_iff hm).symm
  rw [TreeM.computeSideEffects, run_get_bind, run_check_ok heffects, run_bind_of_ok hdropped, hkeeps]
  generalize (n.inSlot "side_effects").filter (t.Unnoticed ·) = dropped
  cases dropped with
  | nil => exact Or.inl ⟨rfl, rfl⟩
  | cons effect dropped =>
    refine Or.inr ⟨by simp, fun c t' hrun => ?_⟩
    simp only [List.isEmpty_cons, Bool.false_eq_true, if_false] at hrun
    obtain ⟨-, t₁, -, hrun⟩ := run_bind_eq_ok_iff.1 hrun
    obtain ⟨left, t₂, -, hrun⟩ := run_bind_eq_ok_iff.1 hrun
    split at hrun
    · obtain ⟨expression?, t₃, -, hrun⟩ := run_bind_eq_ok_iff.1 hrun
      cases expression? <;> cases hrun <;> simp [Computed.changed]
    · cases hrun
      simp [Computed.changed]

theorem keepsEffects_congr (hc : t.Consistent) {t' : Tree} (hn : t.get? id = some n) (hkind : n.kind = .sideEffects)
    (hplain : t'.plain = t.plain) (hsame : ∀ y, t.Within unit id y → t'.get? y = t.get? y) (h : t.KeepsEffects id) :
    t'.KeepsEffects id := by
  obtain ⟨effects, heffects, hall⟩ := h
  have hslot : n.kind.slotIndex? "side_effects" = some 0 := by rw [hkind]; decide
  obtain rfl : n.inSlot "side_effects" = effects :=
    Except.ok.inj ((hc.childrenIn_ok hn "side_effects" hslot).symm.trans heffects)
  refine ⟨_, (eq_of_plain (·.childrenIn id "side_effects") (childrenIn_plain · id _) hplain).trans heffects, ?_⟩
  intro effect heffect
  have hdescends : t.Descends unit id effect := by
    refine ⟨(hc.isParent_iff hn).2 (Node.mem_children_of_inSlot heffect), fun hbody => ?_⟩
    rw [kind_ok hn, hkind] at hbody
    cases hbody
  rw [hc.isObservable_congr hplain fun y hy => hsame y (.head hdescends hy)]
  exact hall effect heffect

/-! ## Imports -/

theorem capabilities_ok (hn : t.get? id = some n) : t.capabilities id = .ok n.capabilities := by
  rw [Tree.capabilities, node_of_get? hn]
  rfl

theorem Rests.read : Rests s t (read : ReplaceM Settings) s false := fun trace _ => ⟨trace, by simp, rfl⟩

/-- The import of a module stays where it is, unless it is announced that it became a hard one; afterwards nothing more
can be learnt about it. -/
theorem computeImportModule_quiet {spec : ImportSpec} {source : SourceRef} (hn : w.tree.get? id = some n)
    (hkind : n.kind = .importModule) (hrun : computeImportModule id spec source s w = .ok c w') (hquiet : c.change = none) :
    Narrows (· = id) w.tree w'.tree ∧ w'.changes = w.changes ∧ w'.trace.abortive = w.trace.abortive ∧
      ∀ t, t.plain = w'.tree.plain → t.get? id = w'.tree.get? id →
        Rests s t (computeImportModule id spec source) c false := by
  have package {t : Tree} (ht : t.plain = w.tree.plain) : t.parentPackage? = w.tree.parentPackage? :=
    eq_of_plain (·.parentPackage?) parentPackage?_plain ht
  unfold computeImportModule at hrun ⊢
  rw [reads_bind_of_ok settings_ok, reads_bind_of_ok tree_ok] at hrun
  dsimp only at hrun
  split at hrun
  · next hmissing =>
    cases hrun
    refine ⟨.refl _ _, rfl, rfl, fun t ht _ => Rests.read.andThen (Rests.look.andThen ?_)⟩
    dsimp only
    rw [package ht, if_pos hmissing]
    exact .andThen (.recordExit _ _) .ret
  · next hfound =>
    split at hrun
    · obtain ⟨hard, w₁, -, hrun⟩ := reads_bind_eq_ok_iff.1 hrun
      cases hrun
      cases hquiet
    · next hsoft =>
      split at hrun
      · next hbuiltIn =>
        -- once the import is known to run no code, there is nothing left to note
        have again {m : Node} (hm : w'.tree.get? id = some m) (hknown : m.capabilities = .quietImport) :
            ∀ t, t.plain = w.tree.plain → t.get? id = w'.tree.get? id →
              Rests s t (computeImportModule id spec source) (.unchanged id) false := fun t ht hid => by
          refine Rests.read.andThen (Rests.look.andThen ?_)
          dsimp only
          rw [package ht, if_neg hfound, if_neg hsoft, if_pos hbuiltIn]
          refine .andThen (.ask (capabilities_ok (hid.trans hm))) ?_
          rw [if_pos hknown]
          exact .ret
        rw [reads_bind_of_ok (ask_ok (capabilities_ok hn))] at hrun
        split at hrun
        · next hknown =>
          cases hrun
          exact ⟨.refl _ _, rfl, rfl, again hn hknown⟩
        · have hset : TreeM.setCapabilities id .quietImport w.tree =
              .ok () (w.tree.modifyNode id fun n => { n with override := some .quietImport }) := by
            rw [TreeM.setCapabilities, run_get_bind, run_check_ok (node_of_get? hn)]
            rfl
          rw [reads_bind_of_ok (onTree_ok hset)] at hrun
          cases hrun
          have hnarrows := Narrows.override hn hkind
          have hnoted := get?_modifyNode_self w.tree id fun n => { n with override := some .quietImport }
          rw [hn, Option.map_some] at hnoted
          exact ⟨hnarrows, rfl, rfl, fun t ht => again hnoted rfl t (ht.trans hnarrows.plain)⟩
      · next hother =>
        cases hrun
        refine ⟨.refl _ _, rfl, rfl, fun t ht _ => Rests.read.andThen (Rests.look.andThen ?_)⟩
        dsimp only
        rw [package ht, if_neg hfound, if_neg hsoft, if_neg hother]
        exact .andThen (.recordExit _ _) .ret

/-! ## Computing -/

/-- A computation at a node noted at most that the node is an import that runs no code, and it rests from now on, as long
as nothing new is learnt about the nodes within. -/
structure Repeats {α : Type} (s : Settings) (unit id : NodeId) (x : ReplaceM α) (a : α) (aborts : Bool) (w w' : Workspace) :
    Prop where
  narrows : Narrows (· = id) w.tree w'.tree
  changes : w'.changes = w.changes
  abortive : w'.trace.abortive = (w.trace.abortive || aborts)
  rests : ∀ t, t.Consistent → t.plain = w'.tree.plain → (∀ y, w'.tree.Within unit id y → t.get? y = w'.tree.get? y) →
    Rests s t x a aborts

theorem Repeats.of_rests {α : Type} {x : ReplaceM α} {a : α} {aborts : Bool} (hc : w.tree.Consistent)
    (hrun : x s w = .ok a w') (hrests : ∀ t, t.Consistent → t.plain = w.tree.plain →
      (∀ y, w.tree.Within unit id y → t.get? y = w.tree.get? y) → Rests s t x a aborts) :
    Repeats s unit id x a aborts w w' := by
  obtain ⟨-, htree, hchanges, habort⟩ := (hrests w.tree hc rfl fun _ _ => rfl).eq_of_ok hrun
  exact ⟨htree ▸ .refl _ _, hchanges, habort, htree ▸ hrests⟩

/-- Most nodes only tell the trace what control may do. -/
theorem computeNode_rests (hn : t.get? id = some n) (hkind : n.kind ∉ [.sideEffects, .builtinRange, .importModule, .importName]) :
    Rests s t (computeNode id) (.unchanged id) (n.kind = .raiseException) := by
  refine .andThen (.ask (node_of_get? hn)) ?_
  split
  · next hraise =>
    rw [hraise]
    split
    · exact .andThen (.recordExit _ _) (Rests.abort.bind .ret)
    · exact Rests.abort.bind .ret
  · next h => simp [h] at hkind
  · next h =>
    rw [h]
    exact .andThen (.recordExit _ _) .ret
  · next h => simp [h] at hkind
  · next h => simp [h] at hkind
  · next h => simp [h] at hkind
  · next h =>
    rw [h]
    exact .andThen (.recordExit _ _) .ret
  · next hraise _ _ _ _ _ _ =>
    rw [decide_eq_false hraise]
    split
    · exact .andThen (.recordExit _ _) .ret
    · exact .ret

section Kinds

theorem computeNode_of_sideEffects (hn : w.tree.get? id = some n) (hkind : n.kind = .sideEffects) :
    computeNode id s w = onTree (TreeM.computeSideEffects id) s w := by
  rw [computeNode, reads_bind_of_ok (ask_ok (node_of_get? hn)), hkind]

theorem computeNode_of_importModule {spec : ImportSpec} (hn : w.tree.get? id = some n) (hkind : n.kind = .importModule)
    (hpayload : n.payload = .moduleImport spec) : computeNode id s w = computeImportModule id spec n.source s w := by
  rw [computeNode, reads_bind_of_ok (ask_ok (node_of_get? hn)), hkind, hpayload]

theorem computeNode_of_importName {name : String} {level : Int64} (hn : w.tree.get? id = some n)
    (hkind : n.kind = .importName) (hpayload : n.payload = .importName name level) :
    computeNode id s w = computeImportName id name n.source s w := by
  rw [computeNode, reads_bind_of_ok (ask_ok (node_of_get? hn)), hkind, hpayload]

/-- What computing a node means as long as its kind, payload and source are what they are. -/
theorem Repeats.of_cautious {x : ReplaceM Computed} (hc : w.tree.Consistent) (hn : w.tree.get? id = some n)
    (hx : Cautious (fun c => c.change = none) x)
    (heq : ∀ {w : Workspace} {n' : Node}, w.tree.get? id = some n' → n'.plain = n.plain → computeNode id s w = x s w)
    (hrun : computeNode id s w = .ok c w') (hquiet : c.change = none) (hsize : w'.changes.size ≤ w.changes.size) :
    Repeats s unit id (computeNode id) c false w w' := by
  refine .of_rests hc hrun fun t _ ht _ trace changes => ?_
  obtain ⟨n', hn', hplain⟩ := get?_of_plain ht hn
  rw [heq (w := ⟨t, trace, changes⟩) hn' hplain]
  exact hx.rests ((heq hn rfl).symm.trans hrun) hquiet hsize t ht trace changes

theorem Payload.eq_moduleImport {payload : Payload} (h : payload.form = .moduleImport) :
    ∃ spec, payload = .moduleImport spec := by
  cases payload with
  | moduleImport spec => exact ⟨spec, rfl⟩
  | _ => cases h

theorem Payload.eq_importName {payload : Payload} (h : payload.form = .importName) :
    ∃ name level, payload = .importName name level := by
  cases payload with
  | importName name level => exact ⟨name, level, rfl⟩
  | _ => cases h

end Kinds

/-- Computing a node without announcing a change can be repeated. -/
theorem computeNode_quiet (unit : NodeId) (hc : w.tree.Consistent) (hn : w.tree.get? id = some n)
    (hrun : computeNode id s w = .ok c w') (hquiet : c.change = none) (hsize : w'.changes.size ≤ w.changes.size) :
    Repeats s unit id (computeNode id) c (n.kind = .raiseException) w w' := by
  have hform := (hc.conforms hn).payload
  by_cases hplainly : n.kind ∉ [.sideEffects, .builtinRange, .importModule, .importName]
  · obtain ⟨rfl, -⟩ := (computeNode_rests (s := s) hn hplainly).eq_of_ok hrun
    refine .of_rests hc hrun fun t _ ht _ => ?_
    obtain ⟨n', hn', hplain⟩ := get?_of_plain ht hn
    have hkind : n'.kind = n.kind := (congrArg Node.kind hplain :)
    simpa [hkind] using computeNode_rests (s := s) hn' (hkind ▸ hplainly)
  · simp only [List.mem_cons, List.not_mem_nil, or_false, not_not] at hplainly
    rcases hplainly with hkind | hkind | hkind | hkind
    all_goals rw [decide_eq_false (by simp [hkind])]
    · rcases computeSideEffects_cases hc hn hkind with ⟨hkeeps, hleft⟩ | ⟨-, hchanged⟩
      · have hhere := (computeNode_of_sideEffects hn hkind).trans (onTree_ok (s := s) hleft)
        obtain rfl : Computed.unchanged id = c := by
          cases hhere.symm.trans hrun
          rfl
        refine .of_rests hc hrun fun t htc ht hsame trace changes => ?_
        obtain ⟨n', hn', hplain⟩ := get?_of_plain ht hn
        have hkind' : n'.kind = .sideEffects := (congrArg Node.kind hplain :).trans hkind
        rcases computeSideEffects_cases htc hn' hkind' with ⟨-, hleft'⟩ | ⟨hnot, -⟩
        · exact ⟨trace, by simp, (computeNode_of_sideEffects (w := ⟨t, trace, changes⟩) hn' hkind').trans (onTree_ok hleft')⟩
        · exact absurd (keepsEffects_congr hc hn hkind ht hsame hkeeps) hnot
      · rw [computeNode_of_sideEffects hn hkind] at hrun
        exact absurd hquiet (hchanged c _ (onTree_eq_ok hrun))
    · refine .of_cautious hc hn (cautious_computeRange id n.source) (fun {w n'} hn' hplain => ?_) hrun hquiet hsize
      have hsource : n'.source = n.source := (congrArg Node.source hplain :)
      rw [computeNode_of_range hn' ((congrArg Node.kind hplain :).trans hkind), hsource]
    · obtain ⟨spec, hpayload⟩ := Payload.eq_moduleImport (hform.trans (by rw [hkind]; rfl))
      rw [computeNode_of_importModule hn hkind hpayload] at hrun
      obtain ⟨hnarrows, hchanges, habort, hrests⟩ := computeImportModule_quiet hn hkind hrun hquiet
      refine ⟨hnarrows, hchanges, by simpa using habort, fun t _ ht hsame trace changes => ?_⟩
      obtain ⟨n', hn', hplain⟩ := get?_of_plain (ht.trans hnarrows.plain) hn
      have hsource : n'.source = n.source := (congrArg Node.source hplain :)
      rw [computeNode_of_importModule (w := ⟨t, trace, changes⟩) hn' ((congrArg Node.kind hplain :).trans hkind)
        ((congrArg Node.payload hplain :).trans hpayload), hsource]
      exact hrests t ht (hsame id .refl) trace changes
    · obtain ⟨name, level, hpayload⟩ := Payload.eq_importName (hform.trans (by rw [hkind]; rfl))
      refine .of_cautious hc hn (cautious_computeImportName id name n.source) (fun {w n'} hn' hplain => ?_) hrun hquiet hsize
      have hsource : n'.source = n.source := (congrArg Node.source hplain :)
      rw [computeNode_of_importName hn' ((congrArg Node.kind hplain :).trans hkind)
        ((congrArg Node.payload hplain :).trans hpayload), hsource]

/-- **Computing a node and putting the outcome in its place, without announcing a change, can be repeated.** -/
theorem compute_quiet (unit : NodeId) (hc : w.tree.Consistent) (hn : w.tree.get? id = some n)
    (hrun : (computeNode id >>= applyComputed id) s w = .ok id' w') (hsize : w'.changes.size ≤ w.changes.size) :
    id' = id ∧ Repeats s unit id (computeNode id >>= applyComputed id) id (n.kind = .raiseException) w w' := by
  obtain ⟨c, w₁, hcompute, happly⟩ := reads_bind_eq_ok_iff.1 hrun
  have hgrows := (tame_computeNode id hcompute).2
  by_cases hquiet : c.change = none
  · rw [applyComputed_unchanged hquiet] at happly
    cases happly
    have hrepeats := computeNode_quiet unit hc hn hcompute hquiet hsize
    refine ⟨rfl, hrepeats.narrows, hrepeats.changes, hrepeats.abortive, fun t htc ht hsame => ?_⟩
    have hleft : Rests s t (applyComputed id c) id false := by
      rw [applyComputed_unchanged hquiet]
      exact .ret
    simpa using (hrepeats.rests t htc ht hsame).bind hleft
  · have hmore := (busy_applyComputed hquiet).grows happly trivial
    omega

end ReplaceM

end Specializer
