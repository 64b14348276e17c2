import Specializer.Proofs.FixedPoint.Repetition
import Specializer.Proofs.Replacement.Tidiness

/-!
# A run stays within the tree

Optimizing a module works on what hangs below the root. Nodes that hang nowhere are left as they are, and the run adds
none to them: all that it has made is below the root or torn down again, and so is all that it has taken out. The proof
follows the run. Looks at a node and computations of a node end with empty hands (`enter_tidies`, `compute_tidies`), a
walk is made of these (`visit_tidies`), a pass of walks (`runPass_tidies`), and a run of passes (`runPasses_tidies`).
-/

namespace Specializer

open Specializer.Tree

namespace ReplaceM

/-! ## Walks -/

section Walks

variable {t₀ t : Tree} {id unit : NodeId}

theorem Leads.discarded {α : Type} {x : ReplaceM α} {Q : Tree → Prop} (hx : Leads t x fun _ => Q) :
    Leads t (discard x) fun _ => Q := by
  intro s w u w' ht hrun
  obtain ⟨a, hrun⟩ := discard_eq_ok hrun
  exact hx ht hrun

theorem looks_get : Looks (get : ReplaceM Workspace) := by
  rintro s w a w' ⟨⟩
  rfl

theorem leads_foldlM_enter : ∀ {visitors : List Visitor} {id : NodeId} {t : Tree}, Tidied t₀ id t →
    Leads t (visitors.foldlM (fun current visitor => visitor.enter current) id) (Tidied t₀)
  | [], _, _, h => leads_ret h
  | visitor :: visitors, _, _, h => by
    rw [List.foldlM_cons]
    exact (enter_tidies visitor h).bind fun _ _ h₁ => leads_foldlM_enter h₁

theorem leads_enterNode (h : Tidied t₀ id t) : Leads t (enterNode id) (Tidied t₀) :=
  leads_look looks_settings fun _ => leads_foldlM_enter h

/-- Only children that are still in their place are walked, and these are no strays. -/
theorem leads_visitChildren {visit : NodeId → ReplaceM Unit} {parent : NodeId} {inSequence : Bool}
    (hparent : ¬ t₀.Stray parent) (hvisit : ∀ child t, Tidied t₀ child t → Leads t (visit child) fun _ => Tidy t₀ []) :
    ∀ {children : List NodeId} {t : Tree}, Tidy t₀ [] t →
      Leads t (visitChildren visit parent inSequence children) fun _ => Tidy t₀ []
  | [], _, h => leads_ret h
  | child :: rest, t, h => by
    refine leads_look looks_get fun w => ?_
    split
    · exact leads_ret h
    refine leads_tree ?_
    split
    · next hchild =>
      have hown : ¬ t₀.Stray child := (h.movable hchild hparent).not_stray
      exact (hvisit child t ⟨h, hown⟩).bind fun _ t₁ h₁ => leads_visitChildren hparent hvisit h₁
    · exact leads_visitChildren hparent hvisit h

theorem leads_visitEntered {fuel : Nat}
    (hvisit : ∀ child t, Tidied t₀ child t → Leads t (visit unit fuel child) (Tidied t₀))
    (h : Tidied t₀ id t) : Leads t (visitEntered unit fuel id) (Tidied t₀) := by
  refine leads_ask fun n _ => ?_
  split
  · exact leads_ret h
  have hchildren (child : NodeId) (t : Tree) (hchild : Tidied t₀ child t) :
      Leads t (discard (visit unit fuel child)) fun _ => Tidy t₀ [] :=
    ((hvisit child t hchild).mono fun _ _ h' => h'.tidy).discarded
  refine (leads_visitChildren h.own hchildren h.tidy).bind fun _ t₁ h₁ => ?_
  split
  · exact leads_ret ⟨h₁, h.own⟩
  · exact compute_tidies ⟨h₁, h.own⟩

/-- **A walk leaves nothing behind.** -/
theorem visit_tidies (unit : NodeId) (fuel : Nat) (h : Tidied t₀ id t) : Leads t (visit unit fuel id) (Tidied t₀) := by
  induction fuel generalizing id t with
  | zero => exact fun _ _ _ _ _ hrun => nomatch hrun
  | succ fuel ih =>
    rw [visit_succ]
    split
    · exact leads_visitEntered (fun _ _ => ih) h
    · exact (leads_enterNode h).bind fun _ _ h₁ => leads_visitEntered (fun _ _ => ih) h₁

end Walks

end ReplaceM

/-! ## Passes -/

section Passes

variable {s : Settings} {t₀ : Tree} {r r' : Run} {unit : NodeId}

open ReplaceM

theorem runUnit_tidies (h : Tidy t₀ [] r.tree) (hrun : RunM.runUnit unit s r = .ok () r') : Tidy t₀ [] r'.tree := by
  cases hreach : r.tree.isReachable unit with
  | false =>
    have hsame : RunM.runUnit unit s r = .ok () r := by
      rw [RunM.runUnit, reads_bind_of_ok (show (get : RunM Run) s r = .ok r r from rfl), hreach]
      rfl
    cases hrun.symm.trans hsame
    exact h
  | true =>
    have hown : ¬ t₀.Stray unit := h.not_stray_of_reachable (h.consistent.isReachable_iff.1 hreach)
    rcases runUnit_eq_ok hrun with ⟨-, rfl⟩ | ⟨trace, w, -, hvisit, rfl⟩
    · exact h
    · rw [visitUnit, reads_bind_of_ok tree_ok] at hvisit
      obtain ⟨id', w₁, hvisit, hret⟩ := reads_bind_eq_ok_iff.1 hvisit
      cases hret
      exact (visit_tidies unit _ ⟨h, hown⟩ rfl hvisit).tidy

theorem runUnits_tidies : ∀ {units : List NodeId} {r : Run}, Tidy t₀ [] r.tree →
    RunM.runUnits units s r = .ok () r' → Tidy t₀ [] r'.tree
  | [], r, h, hrun => by
    cases hrun
    exact h
  | unit :: units, r, h, hrun => by
    obtain ⟨_, r₁, hfirst, hrest⟩ := reads_bind_eq_ok_iff.1 hrun
    exact runUnits_tidies (runUnit_tidies h hfirst) hrest

theorem annotateReadOnly_tidies {t t' : Tree} {count : Nat} (h : Tidy t₀ [] t)
    (hrun : TreeM.annotateReadOnly t = .ok count t') : Tidy t₀ [] t' := by
  cases hroot : t.root with
  | none =>
    have hsame : TreeM.annotateReadOnly t = .ok 0 t := by
      rw [TreeM.annotateReadOnly, run_get_bind, hroot]
      rfl
    cases hrun.symm.trans hsame
    exact h
  | some root =>
    obtain ⟨rebindings, count', -, hdecided⟩ := h.consistent.annotateReadOnly_ok hroot
    cases hrun.symm.trans hdecided
    exact h.of_get?_eq (fun _ => rfl) rfl (by simp [decided])

/-- **A pass leaves nothing behind.** -/
theorem runPass_tidies (h : Tidy t₀ [] r.tree) (hrun : RunM.runPass s r = .ok () r') : Tidy t₀ [] r'.tree := by
  obtain ⟨count, r₁, hfirst, hrun⟩ := reads_bind_eq_ok_iff.1 hrun
  obtain ⟨t, hdecide, rfl⟩ := RunM.onTree_eq_ok hfirst
  obtain ⟨units, r₂, hsecond, hrun⟩ := reads_bind_eq_ok_iff.1 hrun
  obtain ⟨-, rfl⟩ := RunM.query_eq_ok hsecond
  exact runUnits_tidies (r := { r with tree := t }) (annotateReadOnly_tidies h hdecide) hrun

theorem runPasses_tidies : ∀ {left : Nat} {r : Run}, Tidy t₀ [] r.tree → RunM.runPasses left s r = .ok () r' →
    Tidy t₀ [] r'.tree
  | 0, _, _, hrun => nomatch hrun
  | left + 1, r, h, hrun => by
    cases hpass : RunM.runPass s r with
    | error e r₁ =>
      rw [runPasses_of_error hpass] at hrun
      cases hrun
    | ok _ r₁ =>
      have h₁ := runPass_tidies h hpass
      rw [runPasses_of_ok hpass] at hrun
      split at hrun
      · cases hrun
        exact h₁
      · exact runPasses_tidies (r := r₁.counted) h₁ hrun

end Passes

/-- **A run leaks nothing and touches nothing outside the tree.** The live nodes that do not hang below the root are the
same as before, and none of them has changed. So what the run has made hangs below the root as long as it is live, and
what hung below the root before does so still, or was torn down. -/
theorem optimizeModule_strays (s : Settings) {t : Tree} {report : OptimizationReport} {run : Run} (hc : t.Consistent)
    (h : optimizeModule s t = .ok report run) :
    (∀ id, run.tree.Stray id ↔ t.Stray id) ∧ (∀ id, t.Stray id → run.tree.get? id = t.get? id) ∧
      (∀ id, t.isLive id = false → run.tree.isLive id = true → run.tree.Reachable id) ∧
      ∀ id, t.Reachable id → run.tree.isLive id = false ∨ run.tree.Reachable id := by
  obtain ⟨hpasses, -, -⟩ := optimizeModule_eq_ok.1 h
  have htidy : Tidy t [] run.tree := runPasses_tidies (r := { tree := t }) hc.tidy hpasses
  have hlive {id : NodeId} (hid : run.tree.isLive id = true) (hnot : ¬ run.tree.Reachable id) : t.Stray id :=
    htidy.stray_iff.1 ⟨isLive_iff.1 hid, hnot⟩
  refine ⟨fun id => htidy.stray_iff, fun id => htidy.untouched, fun id hdead hid => ?_, fun id hreach => ?_⟩
  · by_contra hnot
    have hstray := isLive_iff.2 (hlive hid hnot).1
    rw [hdead] at hstray
    cases hstray
  · by_contra hnot
    obtain ⟨hid, hlost⟩ : run.tree.isLive id = true ∧ ¬ run.tree.Reachable id := by simpa using hnot
    exact (hlive hid hlost).2 hreach

/-- Two calls `dict(a="b")`, of which only the first was put into the module. -/
def Tree.forgottenCall : Tree :=
  .applyAll {} [
    .newNode .module default (.scope "m") [.one none],
    .declareVariable ⟨0⟩ "dict" .module,
    .newNode .variableRef default (.var ⟨0⟩) [],
    .newNode .constantRef default (.constant (.str "a")) [],
    .newNode .constantRef default (.constant (.str "b")) [],
    .newNode .keyValuePair default .none [.filled ⟨2⟩, .filled ⟨3⟩],
    .newNode .functionCall default .none [.filled ⟨1⟩, .many [], .many [⟨4⟩], .one none, .one none],
    .newNode .statementExpressionOnly default .none [.filled ⟨5⟩],
    .newNode .statementsSequence default .none [.many [⟨6⟩]],
    .setBody ⟨0⟩ ⟨7⟩,
    .setRoot ⟨0⟩,
    .newNode .variableRef default (.var ⟨0⟩) [],
    .newNode .constantRef default (.constant (.str "a")) [],
    .newNode .constantRef default (.constant (.str "b")) [],
    .newNode .keyValuePair default .none [.filled ⟨9⟩, .filled ⟨10⟩],
    .newNode .functionCall default .none [.filled ⟨8⟩, .many [], .many [⟨11⟩], .one none, .one none]]

theorem optimizeModule_strays_forgottenCall : ∃ report run,
    optimizeModule ⟨{}, .ofTable []⟩ Tree.forgottenCall = .ok report run ∧
      run.tree.isLive ⟨5⟩ = false ∧ Tree.forgottenCall.Stray ⟨12⟩ ∧ run.tree.Stray ⟨12⟩ ∧
      run.tree.get? ⟨12⟩ = Tree.forgottenCall.get? ⟨12⟩ := by
  have hbuilt : Tree.forgottenCall.Built := ⟨_, rfl⟩
  have hc := hbuilt.consistent
  have hrun : (match optimizeModule ⟨{}, .ofTable []⟩ Tree.forgottenCall with
      | .ok _ run => !run.tree.isLive ⟨5⟩
      | .error _ _ => false) = true := by decide +kernel
  have hstray : Tree.forgottenCall.Stray ⟨12⟩ := by
    refine ⟨isLive_iff.1 (by decide +kernel), fun hreach => ?_⟩
    have hoff : Tree.forgottenCall.isReachable ⟨12⟩ = false := by decide +kernel
    rw [hc.isReachable_iff.2 hreach] at hoff
    cases hoff
  generalize hoptimized : optimizeModule ⟨{}, .ofTable []⟩ Tree.forgottenCall = outcome at hrun
  cases outcome with
  | error e run => cases hrun
  | ok report run =>
    obtain ⟨hsame, huntouched, -, -⟩ := optimizeModule_strays ⟨{}, .ofTable []⟩ hc hoptimized
    exact ⟨report, run, rfl, by simpa using hrun, hstray, (hsame ⟨12⟩).2 hstray, huntouched ⟨12⟩ hstray⟩

end Specializer
