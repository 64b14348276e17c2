import Specializer.Proofs.Replacement.Growth
import Specializer.Proofs.Replacement.Step

/-!
# Outcomes of replacements

`Ensures` says what holds after a replacement; the only way for it to fail is a hard import that cannot be
located although it should. `Plan.Advance` is what every part of a walk does to plan and workspace, and
`Plan.Settled` what a look at one node does: some node is in its place, and the changes are paid for.
-/

namespace Specializer

/-- Some module that should be somewhere is nowhere. -/
def Settings.Misplaced (s : Settings) (located : ModuleName → Prop) : Prop :=
  ∃ m, located m ∧ ¬ (s.locator.locate m none 0).2.isFound = true

/-- After the computation `Q` holds, unless some module is misplaced. -/
def Ensures {σ α : Type} (located : ModuleName → Prop) (s : Settings) (x : ReaderT Settings (EStateM CompileError σ) α)
    (w : σ) (Q : α → σ → Prop) : Prop :=
  match x s w with
  | .ok a w' => Q a w'
  | .error _ _ => s.Misplaced located

namespace Ensures

variable {σ α β : Type} {located : ModuleName → Prop} {s : Settings} {x : ReaderT Settings (EStateM CompileError σ) α}
  {f : α → ReaderT Settings (EStateM CompileError σ) β} {w w' : σ} {a : α} {Q : α → σ → Prop} {R : β → σ → Prop}

theorem of_ok (h : x s w = .ok a w') (hQ : Q a w') : Ensures located s x w Q := by
  rw [Ensures, h]
  exact hQ

theorem ret (hQ : Q a w) : Ensures located s (pure a) w Q := hQ

theorem bind (hx : Ensures located s x w Q) (hf : ∀ a w', Q a w' → Ensures located s (f a) w' R) :
    Ensures located s (x >>= f) w R := by
  unfold Ensures at hx
  cases h : x s w with
  | ok a w' =>
    rw [h] at hx
    rw [Ensures, reads_bind_of_ok h]
    exact hf a w' hx
  | error e w' =>
    rw [h] at hx
    rw [Ensures, reads_bind_of_error h]
    exact hx

theorem bind_ok (h : x s w = .ok a w') (hf : Ensures located s (f a) w' R) : Ensures located s (x >>= f) w R := by
  rw [Ensures, reads_bind_of_ok h]
  exact hf

theorem mono {Q' : α → σ → Prop} (hx : Ensures located s x w Q) (hQ : ∀ a w', Q a w' → Q' a w') :
    Ensures located s x w Q' := by
  unfold Ensures at hx ⊢
  split
  · next h =>
    rw [h] at hx
    exact hQ _ _ hx
  · next h =>
    rw [h] at hx
    exact hx

theorem discarded {Q : σ → Prop} (hx : Ensures located s x w fun _ => Q) : Ensures located s (discard x) w fun _ => Q := by
  unfold Ensures at hx ⊢
  have hrun : discard x s w = EStateM.map (fun _ => ()) (x s) w := rfl
  cases h : x s w with
  | ok a w' =>
    rw [h] at hx
    rw [hrun, EStateM.map, h]
    exact hx
  | error e w' =>
    rw [h] at hx
    rw [hrun, EStateM.map, h]
    exact hx

end Ensures

namespace Plan

open Specializer.Tree ReplaceM

/-- What a part of a walk does: the new plan fits, everything from a level up is in its place, and the changes that were
announced are kept and have been paid for. -/
structure Advance (located : ModuleName → Prop) (bound : Nat) (P : Plan) (w : Workspace) (P' : Plan) (w' : Workspace) :
    Prop where
  fits : P'.Fits located w'.tree none
  keeps : Keeps bound P w.tree P' w'.tree
  grows : w.changes.size ≤ w'.changes.size
  budget : w'.changes.size + w'.tree.weight P'.credit ≤ w.changes.size + w.tree.weight P.credit

namespace Advance

variable {located : ModuleName → Prop} {b b' : Nat} {P P' P'' : Plan} {w w' w'' : Workspace}

theorem refl (b : Nat) (h : P.Fits located w.tree none) : Advance located b P w P w :=
  ⟨h, .refl b P w.tree, Nat.le_refl _, Nat.le_refl _⟩

theorem mono (h : Advance located b P w P' w') (hb : b ≤ b') : Advance located b' P w P' w' :=
  ⟨h.fits, h.keeps.mono hb, h.grows, h.budget⟩

theorem trans (hf : P.Fits located w.tree none) (h : Advance located b P w P' w')
    (h' : Advance located b P' w' P'' w'') : Advance located b P w P'' w'' :=
  ⟨h'.fits, h.keeps.trans hf h'.keeps, Nat.le_trans h.grows h'.grows, Nat.le_trans h'.budget h.budget⟩

end Advance

/-- A node stands in the tree, below a reachable parent. -/
structure Placed (t : Tree) (id parent : NodeId) : Prop where
  held : t.IsParent id parent
  reach : t.Reachable parent

theorem Placed.reachable {t : Tree} {id parent : NodeId} (h : Placed t id parent) : t.Reachable id := by
  obtain ⟨r, hr, hb⟩ := h.reach
  exact ⟨r, hr, .head h.held hb⟩

/-- What a look at one node does: the node now in its place is no higher than it was. -/
def Settled (located : ModuleName → Prop) (P : Plan) (w : Workspace) (id parent : NodeId) (id' : NodeId)
    (w' : Workspace) : Prop :=
  ∃ P', Advance located (P.level id + 1) P w P' w' ∧ Placed w'.tree id' parent ∧ P'.level id' ≤ P.level id

section Finishing

variable {located : ModuleName → Prop} {s : Settings} {P₀ P : Plan} {t₀ : Tree} {w : Workspace}
  {hole parent new : NodeId} {pending free : List NodeId} {weight : Nat}

theorem Placed.live {t : Tree} (h : Placed t hole parent) : ∃ n, t.get? hole = some n :=
  (parent?_eq_some_iff.1 h.held).imp fun _ => And.left

/-- Filling the hole. -/
theorem Ready.replaceNode_ok (h : Ready located P₀ t₀ P w.tree hole parent pending free weight) (hnew : new ∈ free) :
    ∃ t', replaceNode hole new s w = .ok () { w with tree := t' } ∧ P.Fits located t' none ∧
      Keeps (P₀.level hole + 1) P₀ t₀ P t' ∧ t'.weight P.credit ≤ weight ∧ Placed t' new parent ∧
      t'.bindings = t₀.bindings ∧ ∀ s, P₀.scopes hole s → ∃ n, t'.get? s = some n := by
  obtain ⟨t₁, t₂, hrun₁, hrun₂, hfits, hkeeps, hweight, hpar, hreach, hbind, hscopes⟩ := h.finish hnew
  refine ⟨t₂, ?_, hfits, hkeeps, hweight, ⟨hpar, hreach⟩, hbind.trans h.bindings, h.scopes ▸ hscopes⟩
  rw [replaceNode, reads_bind_of_ok (onTree_ok hrun₁)]
  exact onTree_ok hrun₂

/-- Counting the references of a variable again changes nothing that a plan speaks of. -/
theorem Fits.recount_ok {t : Tree} {v : VariableId} {b : Variable} (h : P.Fits located t none)
    (hb : t.bindings[v.index]? = some b) : ∃ count t', TreeM.reconsiderVariable v t = .ok count t' ∧
      P.Fits located t' none ∧ (∀ x, t'.get? x = t.get? x) ∧ t'.nodes.size = t.nodes.size ∧ t'.root = t.root ∧
      t'.variableAt v = .ok { b with usageCount := count } := by
  have hc := h.built.consistent
  have hlt : v.index < t.bindings.size := (Array.getElem?_eq_some_iff.1 hb).1
  obtain ⟨count, hcount⟩ : ∃ count, t.referenceCount v = .ok count := by
    obtain ⟨r, hr, -⟩ := h.root
    obtain ⟨n, hn, -⟩ := hc.root hr
    obtain ⟨ids, hids, -⟩ := hc.walk_ok hn
    simp only [Tree.referenceCount, hr, hids, ok_bind, except_pure]
    exact ⟨_, rfl⟩
  have hrun : TreeM.reconsiderVariable v t = .ok count { t with
      bindings := t.bindings.setIfInBounds v.index { b with usageCount := count } } := by
    rw [TreeM.reconsiderVariable, run_get_bind, run_check_ok (variableAt_eq_ok_iff.2 hb), run_check_ok hcount]
    rfl
  refine ⟨count, _, hrun, ?_, fun _ => rfl, rfl, rfl, variableAt_eq_ok_iff.2 (by simp [hlt])⟩
  refine h.of_shrink (h.built.of_discard (.reconsiderVariable v) rfl hrun) rfl
    (fun x n' hn' => ⟨n', hn', rfl, rfl, fun _ => id, fun _ => Or.inl rfl⟩) ?_
  intro i b' hb'
  simp only [Array.getElem?_setIfInBounds]
  split
  · next hi =>
    subst hi
    rw [hb, Option.some.injEq] at hb'
    simp [← hb']
  · exact ⟨b', hb', rfl⟩

/-- After a replacement is in place, the count of a variable around it may be announced as a second change. -/
theorem reconsiderVariable_ensures {v : VariableId} {b : Variable} (source : SourceRef)
    (h : P.Fits located w.tree none) (hkeeps : Keeps (P₀.level hole + 1) P₀ t₀ P w.tree)
    (hplaced : Placed w.tree new parent) (hb : w.tree.bindings[v.index]? = some b)
    (howner : ∃ n, w.tree.get? b.owner = some n) (hweight : w.tree.weight P.credit ≤ weight) :
    Ensures located s (reconsiderVariable v source) w fun _ w' =>
      P.Fits located w'.tree none ∧ Keeps (P₀.level hole + 1) P₀ t₀ P w'.tree ∧ Placed w'.tree new parent ∧
        w'.tree.weight P.credit ≤ weight ∧ w.changes.size ≤ w'.changes.size ∧ w'.changes.size ≤ w.changes.size + 1 := by
  obtain ⟨count, t', hrun, hfits, hget, hsize, hroot, hv⟩ := h.recount_ok hb
  obtain ⟨no, hno⟩ := howner
  have hparent : t'.IsParent = w.tree.IsParent := by
    funext x y
    simp only [IsParent, parent?, hget]
  have hkeeps' : Keeps (P₀.level hole + 1) P₀ t₀ P t' := by
    refine ⟨hroot.trans hkeeps.root, fun hn hx hle => ?_⟩
    rw [hget]
    exact hkeeps.node hn hx hle
  have hplaced' : Placed t' new parent := by
    obtain ⟨hp, r, hr, hreach⟩ := hplaced
    exact ⟨hparent ▸ hp, r, hroot.trans hr, by rw [Tree.Below, hparent]; exact hreach⟩
  have hweight' : t'.weight P.credit ≤ weight :=
    Nat.le_trans (weight_le_of_handles_subset (handles_subset fun x n hn => ⟨n, hget x ▸ hn⟩)) hweight
  have hk : t'.kind b.owner = .ok no.kind := by
    rw [Tree.kind, node_of_get? (hget _ ▸ hno)]
    rfl
  refine .bind_ok (onTree_ok hrun) (.bind_ok (ask_ok hv) (.bind_ok (ask_ok hk) ?_))
  split
  · exact .of_ok (signal_ok ..) ⟨hfits, hkeeps', hplaced', hweight', by simp [ChangeLog.size_add], by simp [ChangeLog.size_add]⟩
  · exact .ret ⟨hfits, hkeeps', hplaced', hweight', by simp, by simp⟩

/-- **A replacement through a variable is put in place and announced**: at most two changes. -/
theorem Ready.replaceThrough {α : Type} {v : VariableId} {b : Variable} {w₀ : Workspace} {rest : ReplaceM α}
    {Q : α → Workspace → Prop} (tags : ChangeTags) (source source' : SourceRef) (message : String)
    (h : Ready located P₀ w₀.tree P w.tree hole parent pending free weight) (hnew : new ∈ free)
    (hb : w₀.tree.bindings[v.index]? = some b) (howner : P₀.scopes hole b.owner) (hchanges : w.changes = w₀.changes)
    (hbudget : weight + 2 ≤ w₀.tree.weight P₀.credit)
    (hrest : ∀ w', Settled located P₀ w₀ hole parent new w' → Ensures located s rest w' Q) :
    Ensures located s (do
      replaceNode hole new
      signal tags source message
      reconsiderVariable v source'
      rest) w Q := by
  obtain ⟨t', hrun, hfits, hkeeps, hweight, hplaced, hbind, hscopes⟩ := h.replaceNode_ok (s := s) hnew
  refine .bind_ok hrun (.bind_ok (signal_ok tags source message) ?_)
  have hcount := reconsiderVariable_ensures (s := s)
    (w := { w with tree := t', changes := w.changes.add tags source message }) source' hfits hkeeps hplaced
    (hbind ▸ hb) (hscopes _ howner) hweight
  refine hcount.bind ?_
  rintro - w' ⟨hfits', hkeeps', hplaced', hweight', hgrows, hsize⟩
  simp only [ChangeLog.size_add, hchanges] at hgrows hsize
  refine hrest w' ⟨P, ⟨hfits', hkeeps', by omega, by omega⟩, hplaced', ?_⟩
  rw [← h.level]
  exact (h.free new hnew).level

/-! ## Computed nodes -/

/-- What computing a node may give: nothing new, a change of the node itself, or another node for its place. -/
inductive Offered (located : ModuleName → Prop) (P₀ : Plan) (w₀ : Workspace) (id parent : NodeId) (c : Computed)
    (w : Workspace) : Prop where
  | nothing {P : Plan} (h : c.change = none) (advance : Advance located (P₀.level id + 1) P₀ w₀ P w)
    (placed : Placed w.tree id parent) (level : P.level id ≤ P₀.level id)
  | same {P : Plan} (h : c.node = id) (fits : P.Fits located w.tree none)
    (keeps : Keeps (P₀.level id + 1) P₀ w₀.tree P w.tree) (placed : Placed w.tree id parent)
    (level : P.level id ≤ P₀.level id) (changes : w.changes = w₀.changes)
    (budget : w.tree.weight P.credit + 1 ≤ w₀.tree.weight P₀.credit)
  | other {P : Plan} {pending free : List NodeId} {weight : Nat}
    (h : c.isChanged = true) (ready : Ready located P₀ w₀.tree P w.tree id parent pending free weight) (mem : c.node ∈ free)
    (changes : w.changes = w₀.changes) (budget : weight + 1 ≤ w₀.tree.weight P₀.credit)

theorem Offered.applyComputed {w₀ : Workspace} {id : NodeId} {c : Computed}
    (h : Offered located P₀ w₀ id parent c w) :
    Ensures located s (applyComputed id c) w (Settled located P₀ w₀ id parent) := by
  obtain ⟨id', change⟩ := c
  cases h with
  | nothing hchange advance placed level =>
    obtain rfl : change = none := hchange
    exact .ret ⟨_, advance, placed, level⟩
  | same hnode fits keeps placed level changes budget =>
    obtain rfl : id' = id := hnode
    cases change with
    | none => exact .ret ⟨_, ⟨fits, keeps, by rw [changes], by rw [changes]; omega⟩, placed, level⟩
    | some change =>
      obtain ⟨n, hn⟩ := placed.live
      refine .bind_ok (ask_ok (source_ok hn)) ?_
      rw [if_pos rfl]
      refine .bind_ok (signal_ok ..) (.ret ⟨_, ⟨fits, keeps, ?_, ?_⟩, placed, level⟩)
      all_goals
        simp only [ChangeLog.size_add, changes]
        omega
  | other hchange ready mem changes budget =>
    cases change with
    | none => cases hchange
    | some change =>
      obtain ⟨n, hn⟩ := Placed.live ⟨ready.place, ready.reach⟩
      have hne : id' ≠ id := fun e => (ready.free id' mem).inside.2 (e ▸ ready.spent)
      obtain ⟨t', hrun, hfits, hkeeps, hweight, hplaced, -, -⟩ := ready.replaceNode_ok (s := s) mem
      refine .bind_ok (ask_ok (source_ok hn)) ?_
      rw [if_neg hne]
      refine .bind_ok hrun (.bind_ok (signal_ok ..) (.ret ⟨_, ⟨hfits, hkeeps, ?_, ?_⟩, hplaced, ?_⟩))
      · simp only [ChangeLog.size_add, changes]
        omega
      · simp only [ChangeLog.size_add, changes]
        omega
      · rw [← ready.level]
        exact (ready.free id' mem).level

end Finishing

end Plan

end Specializer
