import Specializer.Proofs.FixedPoint.Confinement
import Specializer.Proofs.FixedPoint.Recounts

/-!
# Counts after a run

A run that keeps a journal (`RunM.tell`) tells every step, and does what a run does otherwise. Between its steps nothing is
counted and nothing is torn down, so what the steps do to counts adds up (`Ledger`). The count of a variable that was
counted again at least once is never less than the number of its references. The two are the same, unless a step after the
last count has thrown away an operand with a reference in it (`optimizeModule_usage`). That can happen: the namespaces of
an import are thrown away without counting again (`staleCount_stays`).
-/

namespace Specializer

open Specializer.Tree ReplaceM

/-! ## Runs that keep a journal -/

namespace RunM

/-- Optimizes a unit, as `RunM.runUnit` does, and adds to the journal. -/
def tellUnit (unit : NodeId) (events : List Event) : RunM (List Event) := do
  if (← get).tree.isReachable unit then
    let name := match ← onTree (TreeM.query (·.payload unit)) with
      | .scope name => name
      | _ => ""
    withTrace unit name do
      let t ← ReplaceM.tree
      return (← JournalM.visit unit (depthBound t) unit events).2
  else return events

/-- Runs the units one after the other, and adds to the journal. -/
def tellUnits : List NodeId → List Event → RunM (List Event)
  | [], events => return events
  | unit :: rest, events => do tellUnits rest (← tellUnit unit events)

/-- One pass over every unit, as `RunM.runPass`, that adds to the journal. -/
def tellPass (events : List Event) : RunM (List Event) := do
  let _ ← onTree TreeM.annotateReadOnly
  tellUnits (← onTree (TreeM.query (·.units))) events

/-- Runs passes as `RunM.runPasses` does, and adds to the journal. -/
def tellPasses : Nat → List Event → RunM (List Event)
  | 0, events => do
    runPasses 0
    return events
  | left + 1, events => do
    let before := (← get).report.changes.size
    let events ← tellPass events
    modify fun s => { s with report := { s.report with passes := s.report.passes + 1 } }
    if (← get).report.changes.size = before then
      modify fun s => { s with state := .stable }
      return events
    else tellPasses left events

/-- Optimizes the tree as `RunM.optimize` does, and tells how. -/
def tell : RunM (OptimizationReport × List Event) := do
  let events ← tellPasses (← read).options.maxPasses []
  onTree (TreeM.query (·.validate))
  return ((← get).report, events)

end RunM

/-- Optimizing a module with a journal of all steps. -/
def tellModule (settings : Settings) (tree : Tree) :
    EStateM.Result CompileError Run (OptimizationReport × List Event) :=
  RunM.tell settings { tree }

/-! ## Counts in a journal -/

/-- A step tears down a reference to a variable with an operand that it throws away. -/
def Step.Discards (step : Step) (v : VariableId) : Prop :=
  ∃ x, step.before.IsReference x v ∧ step.before.InDiscardable step.node x ∧ step.after.get? x = none

/-- Some step counts the references of a variable again. -/
def Recounts (events : List Event) (v : VariableId) : Prop := ∃ step, .step step ∈ events ∧ step.recounted? = some v

instance (events : List Event) (v : VariableId) : Decidable (Recounts events v) :=
  decidable_of_iff (∃ step ∈ events.filterMap Event.step?, step.recounted? = some v) (by simp [Recounts])

/-- A step throws away a reference to a variable, which is not counted again then or later. -/
def Unsettled (events : List Event) (v : VariableId) : Prop :=
  ∃ earlier step later, events = earlier ++ .step step :: later ∧ step.Discards v ∧ ¬ Recounts (.step step :: later) v

section Events

variable {events earlier later : List Event} {v : VariableId}

theorem recounts_append : Recounts (earlier ++ later) v ↔ Recounts earlier v ∨ Recounts later v := by
  simp only [Recounts, List.mem_append, or_and_right, exists_or]

theorem unsettled_append : Unsettled (earlier ++ later) v ↔
    Unsettled later v ∨ Unsettled earlier v ∧ ¬ Recounts later v := by
  constructor
  · rintro ⟨before, step, after, hsplit, hdiscards, hnot⟩
    -- the journal is cut before the step or after it
    rcases List.append_eq_append_iff.1 hsplit with ⟨more, rfl, rfl⟩ | ⟨more, rfl, hafter⟩
    · exact .inl ⟨more, step, after, rfl, hdiscards, hnot⟩
    · cases more with
      | nil => exact .inl ⟨[], step, after, hafter.symm, hdiscards, hnot⟩
      | cons event more =>
        rw [List.cons_append] at hafter
        obtain ⟨rfl, rfl⟩ := List.cons.inj hafter
        rw [← List.cons_append, recounts_append, not_or] at hnot
        exact .inr ⟨⟨before, step, more, rfl, hdiscards, hnot.1⟩, hnot.2⟩
  · rintro (⟨before, step, after, rfl, hdiscards, hnot⟩ | ⟨⟨before, step, after, rfl, hdiscards, hnot⟩, hlater⟩)
    · exact ⟨earlier ++ before, step, after, by simp, hdiscards, hnot⟩
    · refine ⟨before, step, after ++ later, by simp, hdiscards, ?_⟩
      rw [← List.cons_append, recounts_append, not_or]
      exact ⟨hnot, hlater⟩

theorem recounts_singleton {step : Step} : Recounts [.step step] v ↔ step.recounted? = some v := by
  simp [Recounts]

theorem unsettled_singleton {step : Step} : Unsettled [.step step] v ↔ step.Discards v ∧ step.recounted? ≠ some v := by
  constructor
  · rintro ⟨before, step', after, hsplit, hdiscards, hnot⟩
    obtain ⟨rfl, rfl⟩ : step = step' ∧ [] = after := by
      cases before <;> simp_all
    exact ⟨hdiscards, mt recounts_singleton.2 hnot⟩
  · rintro ⟨hdiscards, hnot⟩
    exact ⟨[], step, [], rfl, hdiscards, mt recounts_singleton.1 hnot⟩

end Events

/-! ## Ledgers -/

/-- What a part of a run does to the tree and to the counts of variables. Without a new count, the old one stays, and there
are fewer references exactly if some were thrown away. After a new count, it is never too small, and it is too large
exactly if a reference was thrown away since. -/
structure Ledger (t t' : Tree) (events : List Event) : Prop extends Evolved t t' where
  tidy : Tidy t [] t'
  kept : ∀ {v}, ¬ Recounts events v → t'.usage? v = t.usage? v ∧ (t'.references v < t.references v ↔ Unsettled events v)
  settled : ∀ {v}, Recounts events v → ∃ usage, t'.usage? v = some usage ∧ t'.references v ≤ usage ∧
    (t'.references v = usage ↔ ¬ Unsettled events v)

namespace Ledger

variable {t t₁ t' : Tree} {events more : List Event} {v : VariableId}

theorem references_le (h : Ledger t t' events) (v : VariableId) : t'.references v ≤ t.references v :=
  (h.toEvolved.references_lt_iff h.tidy v).1

/-- Where no step is told, nothing happens to counts. -/
theorem idle (hc : t.Consistent) (hsame : SameNodes t t') (husage : ∀ v, t'.usage? v = t.usage? v)
    (hevents : ∀ step, .step step ∉ events) : Ledger t t' events := by
  refine ⟨hsame.evolved hc, hsame.tidy hc, fun {v} _ => ⟨husage v, ?_⟩, fun ⟨step, hmem, _⟩ => absurd hmem (hevents step)⟩
  rw [hsame.references hc]
  refine ⟨fun hlt => absurd hlt (Nat.lt_irrefl _), ?_⟩
  rintro ⟨earlier, step, later, rfl, -⟩
  exact absurd (by simp) (hevents step)

theorem unchanged (hc : t.Consistent) (hevents : ∀ step, .step step ∉ events) : Ledger t t events :=
  idle hc ⟨rfl, rfl, Nat.le_refl _⟩ (fun _ => rfl) hevents

/-- The ledger of a step is its account. -/
theorem of_accounts (step : Step) (hevolved : step.before.Evolved step.after) (htidy : Tidy step.before [] step.after)
    (h : Accounts step.before step.after step.node step.recounted?) : Ledger step.before step.after [.step step] := by
  refine ⟨hevolved, htidy, fun {v} hnot => ?_, fun {v} hrecounts => ?_⟩
  · rw [recounts_singleton] at hnot
    refine ⟨h.usage hnot, ?_⟩
    rw [(hevolved.references_lt_iff htidy v).2, unsettled_singleton]
    constructor
    · rintro ⟨x, hx, hgone⟩
      exact ⟨⟨x, hx, (h.losses hx.mentions hgone).resolve_left hnot, hgone⟩, hnot⟩
    · rintro ⟨⟨x, hx, -, hgone⟩, -⟩
      exact ⟨x, hx, hgone⟩
  · rw [recounts_singleton] at hrecounts
    refine ⟨_, h.count hrecounts, Nat.le_refl _, fun _ hunsettled => ?_, fun _ => rfl⟩
    exact (unsettled_singleton.1 hunsettled).2 hrecounts

/-- **Ledgers add up.** -/
theorem trans (h : Ledger t t₁ events) (h' : Ledger t₁ t' more) : Ledger t t' (events ++ more) := by
  refine ⟨h.toEvolved.trans h'.toEvolved, h.tidy.trans h'.tidy, fun {v} hnot => ?_, fun {v} hrecounts => ?_⟩
  · rw [recounts_append, not_or] at hnot
    obtain ⟨husage, hfewer⟩ := h.kept hnot.1
    obtain ⟨husage', hfewer'⟩ := h'.kept hnot.2
    have hle := h.references_le v
    have hle' := h'.references_le v
    refine ⟨husage'.trans husage, ?_⟩
    rw [unsettled_append, ← hfewer, ← hfewer', and_iff_left hnot.2]
    omega
  · by_cases hlater : Recounts more v
    -- the last count settles whatever was thrown away before
    · obtain ⟨usage, husage, hle, hexact⟩ := h'.settled hlater
      refine ⟨usage, husage, hle, hexact.trans (not_congr ?_)⟩
      rw [unsettled_append]
      simp [hlater]
    -- the count is from before, and is out of date by what was thrown away since
    · obtain ⟨usage, husage, hle, hexact⟩ := h.settled ((recounts_append.1 hrecounts).resolve_right hlater)
      obtain ⟨husage', hfewer'⟩ := h'.kept hlater
      have hle' := h'.references_le v
      refine ⟨usage, husage'.trans husage, Nat.le_trans hle' hle, ?_⟩
      rw [unsettled_append, and_iff_left hlater, not_or, ← hfewer', ← hexact]
      omega

end Ledger

/-! ## Walks -/

/-- A known node that is no stray. -/
structure Rooted (t : Tree) (id : NodeId) : Prop where
  consistent : t.Consistent
  known : id.index < t.nodes.size
  own : ¬ t.Stray id

theorem Ledger.rooted {t t' : Tree} {events : List Event} {id : NodeId} (h : Ledger t t' events) (hid : Rooted t id) :
    Rooted t' id :=
  ⟨h.consistent, Nat.lt_of_lt_of_le hid.known h.size, mt h.tidy.stray_iff.1 hid.own⟩

theorem Rooted.child {t : Tree} {child parent : NodeId} (h : Rooted t parent) (hparent : t.IsParent child parent) :
    Rooted t child := by
  obtain ⟨n, hn, -⟩ := parent?_eq_some_iff.1 hparent
  exact ⟨h.consistent, lt_size_of_get? hn, mt (h.consistent.stray_iff_of_isParent hparent).1 h.own⟩

section Walks

variable {s : Settings} {unit id id' : NodeId} {w w' : Workspace} {events : List Event} {visitors : List Visitor}
  {task : Task}

/-- The ledger of a step, and the node that is left in the place. -/
theorem Step.ledger (step : Step) (hstepped : step.before.Stepped step.after step.node step.result)
    (htidied : Tidied step.before step.result step.after)
    (haccounts : Accounts step.before step.after step.node step.recounted?) :
    Ledger step.before step.after [.step step] ∧ Rooted step.after step.result :=
  ⟨.of_accounts step hstepped.toEvolved htidied.tidy haccounts, hstepped.consistent, hstepped.known,
    mt htidied.tidy.stray_iff.1 htidied.own⟩

theorem enter_ledger {visitor : Visitor} (hid : Rooted w.tree id) (hrun : visitor.enter id s w = .ok id' w') :
    Ledger w.tree w'.tree [.step ⟨some visitor, id, w.tree, id', w'.tree⟩] ∧ Rooted w'.tree id' :=
  Step.ledger ⟨some visitor, id, w.tree, id', w'.tree⟩ (enter_steps id visitor hid.consistent hid.known hrun).stepped
    (enter_tidies visitor ⟨hid.consistent.tidy, hid.own⟩ rfl hrun) (enter_accounts visitor hid.consistent rfl hrun)

theorem compute_ledger (hid : Rooted w.tree id) (hrun : (computeNode id >>= applyComputed id) s w = .ok id' w') :
    Ledger w.tree w'.tree [.step ⟨none, id, w.tree, id', w'.tree⟩] ∧ Rooted w'.tree id' :=
  Step.ledger ⟨none, id, w.tree, id', w'.tree⟩ (compute_steps id hid.consistent hid.known hrun).stepped
    (compute_tidies ⟨hid.consistent.tidy, hid.own⟩ rfl hrun) (compute_accounts hid.consistent rfl hrun)

theorem Enters.ledger (h : Enters s visitors id w events id' w') : Rooted w.tree id →
    Ledger w.tree w'.tree events ∧ Rooted w'.tree id' := by
  induction h with
  | nil => exact fun hid => ⟨.unchanged hid.consistent (by simp), hid⟩
  | cons hlook _ ih =>
    intro hid
    obtain ⟨hfirst, hmid⟩ := enter_ledger hid hlook
    obtain ⟨hrest, hid'⟩ := ih hmid
    exact ⟨hfirst.trans hrest, hid'⟩

/-- **The ledger of a walk** is that of its parts. -/
theorem Walks.ledger (h : Walks s unit task w events id' w') : Rooted w.tree task.place →
    Ledger w.tree w'.tree events ∧ Rooted w'.tree id' := by
  induction h with
  | unit _ ih => exact ih
  | enter _ henters _ ih =>
    intro hid
    obtain ⟨hlooks, hmid⟩ := henters.ledger hid
    obtain ⟨hbelow, hid'⟩ := ih hmid
    exact ⟨hlooks.trans hbelow, hid'⟩
  | function => exact fun hid => ⟨.unchanged hid.consistent (by simp), hid⟩
  | inUnit _ _ ih => exact ih
  | compute _ _ _ _ hcompute ih =>
    intro hid
    obtain ⟨hbelow, hid₁⟩ := ih hid
    obtain ⟨hlast, hid'⟩ := compute_ledger hid₁ hcompute
    exact ⟨hbelow.trans hlast, hid'⟩
  | nil => exact fun hid => ⟨.unchanged hid.consistent (by simp), hid⟩
  | ended => exact fun hid => ⟨.unchanged hid.consistent (by simp), hid⟩
  | child hparent _ _ ih₁ ih₂ =>
    intro hid
    obtain ⟨hfirst, hdone⟩ := ih₁ (hid.child hparent)
    obtain ⟨hothers, hid'⟩ := ih₂ (hfirst.rooted hid)
    exact ⟨(hfirst.trans (.unchanged hdone.consistent (by simp))).trans hothers, hid'⟩
  | moved _ _ ih => exact ih

end Walks

/-! ## Passes -/

section Passes

variable {s : Settings} {r r' : Run} {unit : NodeId}

theorem runUnit_tells (hc : r.tree.Consistent) (h : RunM.runUnit unit s r = .ok () r') : ∃ more,
    (∀ events, RunM.tellUnit unit events s r = .ok (events ++ more) r') ∧ Ledger r.tree r'.tree more := by
  have hget : (get : RunM Run) s r = .ok r r := rfl
  rw [RunM.runUnit, reads_bind_of_ok hget] at h
  cases hreach : r.tree.isReachable unit with
  | false =>
    rw [hreach] at h
    cases h
    refine ⟨[], fun events => ?_, .unchanged hc (by simp)⟩
    rw [RunM.tellUnit, reads_bind_of_ok hget, hreach, List.append_nil]
    rfl
  | true =>
    rw [if_pos hreach] at h
    obtain ⟨payload, r₁, hpayload, hwalk⟩ := reads_bind_eq_ok_iff.1 h
    obtain ⟨-, rfl⟩ := RunM.query_eq_ok hpayload
    obtain ⟨w, hvisit, rfl⟩ := withTrace_eq_ok hwalk
    rw [visitUnit, reads_bind_of_ok tree_ok] at hvisit
    obtain ⟨id', w₁, hvisit, hret⟩ := reads_bind_eq_ok_iff.1 hvisit
    cases hret
    obtain ⟨more, hwalks, hruns⟩ := visit_walks hvisit
    have hreachable := hc.isReachable_iff.1 hreach
    obtain ⟨n, hn⟩ := hwalks.of_unit.2
    have hunit : Rooted r.tree unit := ⟨hc, lt_size_of_get? hn, fun hstray => hstray.2 hreachable⟩
    refine ⟨more, fun events => ?_, (hwalks.ledger hunit).1⟩
    rw [RunM.tellUnit, reads_bind_of_ok hget, if_pos hreach, reads_bind_of_ok hpayload]
    refine withTrace_ok ?_
    rw [reads_bind_of_ok tree_ok]
    exact reads_bind_of_ok (hruns events)

theorem runUnits_tells : ∀ {units : List NodeId} {r : Run}, r.tree.Consistent → RunM.runUnits units s r = .ok () r' →
    ∃ more, (∀ events, RunM.tellUnits units events s r = .ok (events ++ more) r') ∧ Ledger r.tree r'.tree more
  | [], r, hc, h => by
    cases h
    exact ⟨[], fun events => by rw [List.append_nil]; rfl, .unchanged hc (by simp)⟩
  | unit :: units, r, hc, h => by
    obtain ⟨_, r₁, hunit, hunits⟩ := reads_bind_eq_ok_iff.1 h
    obtain ⟨more₁, htell₁, hledger₁⟩ := runUnit_tells hc hunit
    obtain ⟨more₂, htell₂, hledger₂⟩ := runUnits_tells hledger₁.consistent hunits
    refine ⟨more₁ ++ more₂, fun events => ?_, hledger₁.trans hledger₂⟩
    rw [← List.append_assoc]
    exact (reads_bind_of_ok (htell₁ events)).trans (htell₂ _)

/-- Deciding which variables are read-only counts nothing. -/
theorem annotateReadOnly_ledger {t t' : Tree} {count : Nat} (hc : t.Consistent)
    (hrun : TreeM.annotateReadOnly t = .ok count t') : Ledger t t' [] := by
  cases hroot : t.root with
  | none =>
    have hsame : TreeM.annotateReadOnly t = .ok 0 t := by
      rw [TreeM.annotateReadOnly, run_get_bind, hroot]
      rfl
    cases hrun.symm.trans hsame
    exact .unchanged hc (by simp)
  | some root =>
    obtain ⟨rebindings, count', -, hdecided⟩ := hc.annotateReadOnly_ok hroot
    cases hrun.symm.trans hdecided
    refine .idle hc ⟨rfl, rfl, by simp [decided]⟩ (fun v => ?_) (by simp)
    simp only [usage?, decided, Array.getElem?_mapIdx]
    cases t.bindings[v.index]? with
    | none => rfl
    | some b =>
      simp only [Option.map_some]
      split <;> rfl

theorem runPass_tells (hc : r.tree.Consistent) (h : RunM.runPass s r = .ok () r') : ∃ more,
    (∀ events, RunM.tellPass events s r = .ok (events ++ more) r') ∧ Ledger r.tree r'.tree more := by
  obtain ⟨count, r₁, hdecide, h⟩ := reads_bind_eq_ok_iff.1 h
  obtain ⟨units, r₂, hask, h⟩ := reads_bind_eq_ok_iff.1 h
  obtain ⟨-, rfl⟩ := RunM.query_eq_ok hask
  obtain ⟨decided, hdecided, rfl⟩ := RunM.onTree_eq_ok hdecide
  have hfirst := annotateReadOnly_ledger hc hdecided
  obtain ⟨more, htell, hledger⟩ := runUnits_tells (r := { r with tree := decided }) hfirst.consistent h
  refine ⟨more, fun events => ?_, hfirst.trans hledger⟩
  exact (reads_bind_of_ok hdecide).trans ((reads_bind_of_ok hask).trans (htell events))

theorem tellPasses_of_ok {events more : List Event} (h : RunM.tellPass events s r = .ok more r') (left : Nat) :
    RunM.tellPasses (left + 1) events s r = if r'.report.changes.size = r.report.changes.size
      then .ok more { r'.counted with state := .stable } else RunM.tellPasses left more s r'.counted := by
  rw [RunM.tellPasses, reads_bind_of_ok (show (get : RunM Run) s r = .ok r r from rfl), reads_bind_of_ok h]
  show (ite (r'.report.changes.size = r.report.changes.size) _ _ : RunM (List Event)) s r'.counted = _
  split <;> rfl

theorem runPasses_tells : ∀ {left : Nat} {r : Run}, r.tree.Consistent → RunM.runPasses left s r = .ok () r' →
    ∃ more, (∀ events, RunM.tellPasses left events s r = .ok (events ++ more) r') ∧ Ledger r.tree r'.tree more
  | 0, _, _, h => nomatch h
  | left + 1, r, hc, h => by
    cases hpass : RunM.runPass s r with
    | error e r₁ =>
      rw [runPasses_of_error hpass] at h
      cases h
    | ok _ r₁ =>
      obtain ⟨more₁, htell₁, hledger₁⟩ := runPass_tells hc hpass
      rw [runPasses_of_ok hpass] at h
      split at h
      · next hquiet =>
        cases h
        refine ⟨more₁, fun events => ?_, hledger₁⟩
        rw [tellPasses_of_ok (htell₁ events), if_pos hquiet]
      · next hbusy =>
        obtain ⟨more₂, htell₂, hledger₂⟩ := runPasses_tells (r := r₁.counted) hledger₁.consistent h
        refine ⟨more₁ ++ more₂, fun events => ?_, hledger₁.trans hledger₂⟩
        rw [tellPasses_of_ok (htell₁ events), if_neg hbusy, ← List.append_assoc]
        exact htell₂ _

end Passes

/-- A run that succeeds is told in a journal, and the steps in it make up its ledger. -/
theorem optimizeModule_tells {s : Settings} {t : Tree} {report : OptimizationReport} {run : Run} (hc : t.Consistent)
    (h : optimizeModule s t = .ok report run) :
    ∃ events, tellModule s t = .ok (report, events) run ∧ Ledger t run.tree events := by
  obtain ⟨hpasses, hvalid, rfl⟩ := optimizeModule_eq_ok.1 h
  obtain ⟨events, htell, hledger⟩ := runPasses_tells (r := { tree := t }) hc hpasses
  refine ⟨events, ?_, hledger⟩
  have hread : (read : RunM Settings) s { tree := t } = .ok s { tree := t } := rfl
  have hquery : RunM.onTree (TreeM.query (·.validate)) s run = .ok () run := Running.query_ok hvalid
  rw [tellModule, RunM.tell, reads_bind_of_ok hread, reads_bind_of_ok (htell []), reads_bind_of_ok hquery]
  rfl

/-- **Counts are never too small, and too large only for references that were thrown away.** A run that succeeds is told in
a journal. If the references of a variable were counted again at least once, its count afterwards is at least the number of
nodes below the root that read it. It is that number, unless a step threw away a reference to the variable, with a namespace
of an import or with an operand that cannot be noticed, and the variable was not counted again then or later. -/
theorem optimizeModule_usage (s : Settings) {t : Tree} {report : OptimizationReport} {run : Run} (hc : t.Consistent)
    (h : optimizeModule s t = .ok report run) :
    ∃ events, tellModule s t = .ok (report, events) run ∧ ∀ v, Recounts events v → ∃ b count,
      run.tree.variableAt v = .ok b ∧ run.tree.referenceCount v = .ok count ∧ count ≤ b.usageCount ∧
        (count = b.usageCount ↔ ¬ Unsettled events v) := by
  obtain ⟨events, htell, hledger⟩ := optimizeModule_tells hc h
  refine ⟨events, htell, fun v hrecounts => ?_⟩
  obtain ⟨usage, husage, hle, hexact⟩ := hledger.settled hrecounts
  obtain ⟨b, hb, rfl⟩ := Option.map_eq_some_iff.1 husage
  exact ⟨b, run.tree.references v, by simp [variableAt, hb], hledger.consistent.referenceCount_eq v, hle, hexact⟩

/-! ## A count that is out of date -/

/-- The module `len("a")` and `__import__("x", len)`, where nothing rebinds `len`. -/
def Tree.staleCount : Tree :=
  .applyAll {} [
    .newNode .module default (.scope "m") [.one none],
    .declareVariable ⟨0⟩ "len" .module,
    .newNode .variableRef default (.var ⟨0⟩) [],
    .newNode .constantRef default (.constant (.str "a")) [],
    .newNode .functionCall default .none [.filled ⟨1⟩, .many [⟨2⟩], .many [], .one none, .one none],
    .newNode .statementExpressionOnly default .none [.filled ⟨3⟩],
    .newNode .constantRef default (.constant (.str "x")) [],
    .newNode .variableRef default (.var ⟨0⟩) [],
    .newNode .builtinImport default .none [.filled ⟨5⟩, .filled ⟨6⟩, .one none, .one none, .one none],
    .newNode .statementExpressionOnly default .none [.filled ⟨7⟩],
    .newNode .statementsSequence default .none [.many [⟨4⟩, ⟨8⟩]],
    .setBody ⟨0⟩ ⟨9⟩,
    .setRoot ⟨0⟩]

theorem Tree.staleCount_run : ∃ report run b, optimizeModule ⟨{}, .ofTable []⟩ staleCount = .ok report run ∧
    run.tree.variableAt ⟨0⟩ = .ok b ∧ b.usageCount = 1 ∧ run.tree.referenceCount ⟨0⟩ = .ok 0 := by
  have hrun : succeedsWith (fun _ run => run.tree.usage? ⟨0⟩ = some 1 ∧ run.tree.referenceCount ⟨0⟩ = .ok 0)
      (optimizeModule ⟨{}, .ofTable []⟩ staleCount) = true := by decide +kernel
  obtain ⟨report, run, hrun, hcounts⟩ := succeedsWith_iff.1 hrun
  obtain ⟨husage, hnone⟩ := of_decide_eq_true hcounts
  obtain ⟨b, hb, hone⟩ := Option.map_eq_some_iff.1 husage
  exact ⟨report, run, b, hrun, by simp [variableAt, hb], hone, hnone⟩

/-- The look at the call counts the references to `len` again. -/
theorem Tree.staleCount_recounts {report : OptimizationReport} {events : List Event} {run : Run}
    (h : tellModule ⟨{}, .ofTable []⟩ staleCount = .ok (report, events) run) : Recounts events ⟨0⟩ := by
  have htold : succeedsWith (fun told _ => Recounts told.2 ⟨0⟩) (tellModule ⟨{}, .ofTable []⟩ staleCount) = true := by
    decide +kernel
  rw [h] at htold
  exact of_decide_eq_true htold

/-- The same module with `ord("b")` and `ord` after it. -/
def Tree.mixedCounts : Tree :=
  staleCount.applyAll [
    .declareVariable ⟨0⟩ "ord" .module,
    .newNode .variableRef default (.var ⟨1⟩) [],
    .newNode .constantRef default (.constant (.str "b")) [],
    .newNode .functionCall default .none [.filled ⟨10⟩, .many [⟨11⟩], .many [], .one none, .one none],
    .newNode .statementExpressionOnly default .none [.filled ⟨12⟩],
    .newNode .variableRef default (.var ⟨1⟩) [],
    .newNode .statementExpressionOnly default .none [.filled ⟨14⟩],
    .attach ⟨9⟩ "statements" ⟨13⟩,
    .attach ⟨9⟩ "statements" ⟨15⟩]

theorem Tree.mixedCounts_run : ∃ report run len ord, optimizeModule ⟨{}, .ofTable []⟩ mixedCounts = .ok report run ∧
    run.tree.variableAt ⟨0⟩ = .ok len ∧ len.usageCount = 1 ∧ run.tree.referenceCount ⟨0⟩ = .ok 0 ∧
      run.tree.variableAt ⟨1⟩ = .ok ord ∧ ord.usageCount = 1 ∧ run.tree.referenceCount ⟨1⟩ = .ok 1 := by
  have hrun : succeedsWith (fun _ run => (run.tree.usage? ⟨0⟩ = some 1 ∧ run.tree.referenceCount ⟨0⟩ = .ok 0) ∧
      run.tree.usage? ⟨1⟩ = some 1 ∧ run.tree.referenceCount ⟨1⟩ = .ok 1)
      (optimizeModule ⟨{}, .ofTable []⟩ mixedCounts) = true := by decide +kernel
  obtain ⟨report, run, hrun, hcounts⟩ := succeedsWith_iff.1 hrun
  obtain ⟨⟨hlen, hnone⟩, hord, hone⟩ := of_decide_eq_true hcounts
  obtain ⟨len, hlenAt, hlenCount⟩ := Option.map_eq_some_iff.1 hlen
  obtain ⟨ord, hordAt, hordCount⟩ := Option.map_eq_some_iff.1 hord
  exact ⟨report, run, len, ord, hrun, by simp [variableAt, hlenAt], hlenCount, hnone, by simp [variableAt, hordAt],
    hordCount, hone⟩

/-- The looks at the calls count the references to both names again. -/
theorem Tree.mixedCounts_recounts {report : OptimizationReport} {events : List Event} {run : Run}
    (h : tellModule ⟨{}, .ofTable []⟩ mixedCounts = .ok (report, events) run) :
    Recounts events ⟨0⟩ ∧ Recounts events ⟨1⟩ := by
  have htold : succeedsWith (fun told _ => Recounts told.2 ⟨0⟩ ∧ Recounts told.2 ⟨1⟩)
      (tellModule ⟨{}, .ofTable []⟩ mixedCounts) = true := by decide +kernel
  rw [h] at htold
  exact of_decide_eq_true htold

/-- The import has thrown the last reference to `len` away, and it was not counted again. The count of `ord` is that of
the one reference which is left. -/
theorem optimizeModule_usage_mixedCounts : ∃ report run events ord,
    optimizeModule ⟨{}, .ofTable []⟩ Tree.mixedCounts = .ok report run ∧
      tellModule ⟨{}, .ofTable []⟩ Tree.mixedCounts = .ok (report, events) run ∧
      (Recounts events ⟨0⟩ ∧ Unsettled events ⟨0⟩) ∧ (Recounts events ⟨1⟩ ∧ ¬ Unsettled events ⟨1⟩) ∧
      run.tree.variableAt ⟨1⟩ = .ok ord ∧ ord.usageCount = 1 ∧ run.tree.referenceCount ⟨1⟩ = .ok 1 := by
  have hconsistent : Tree.mixedCounts.Consistent := (show Tree.staleCount.Built from ⟨_, rfl⟩).consistent.applyAll _
  obtain ⟨report, run, len, ord, hrun, hlen, hlenCount, hnone, hord, hordCount, hone⟩ := Tree.mixedCounts_run
  obtain ⟨events, htell, hcounts⟩ := optimizeModule_usage ⟨{}, .ofTable []⟩ hconsistent hrun
  obtain ⟨hrecounts₀, hrecounts₁⟩ := Tree.mixedCounts_recounts htell
  have hunsettled : Unsettled events ⟨0⟩ := by
    obtain ⟨b, count, hb, hcount, -, hexact⟩ := hcounts ⟨0⟩ hrecounts₀
    obtain rfl := Except.ok.inj (hlen.symm.trans hb)
    obtain rfl := Except.ok.inj (hnone.symm.trans hcount)
    -- were nothing unsettled, the count would be the number of references
    by_contra hsettled
    rw [hlenCount] at hexact
    exact absurd (hexact.2 hsettled) (by decide)
  have hsettled : ¬ Unsettled events ⟨1⟩ := by
    obtain ⟨b, count, hb, hcount, -, hexact⟩ := hcounts ⟨1⟩ hrecounts₁
    obtain rfl := Except.ok.inj (hord.symm.trans hb)
    obtain rfl := Except.ok.inj (hone.symm.trans hcount)
    exact hexact.1 hordCount.symm
  exact ⟨report, run, events, ord, hrun, htell, ⟨hrecounts₀, hunsettled⟩, ⟨hrecounts₁, hsettled⟩, hord, hordCount, hone⟩

/-- The references to `len` were counted again during the run. None is left in the end, and the count is one. -/
theorem staleCount_stays : ∃ report run events b, Tree.staleCount.Built ∧
    optimizeModule ⟨{}, .ofTable []⟩ Tree.staleCount = .ok report run ∧
      tellModule ⟨{}, .ofTable []⟩ Tree.staleCount = .ok (report, events) run ∧ Recounts events ⟨0⟩ ∧
      run.tree.variableAt ⟨0⟩ = .ok b ∧ b.usageCount = 1 ∧ run.tree.referenceCount ⟨0⟩ = .ok 0 := by
  have hbuilt : Tree.staleCount.Built := ⟨_, rfl⟩
  obtain ⟨report, run, b, hrun, hb, hone, hnone⟩ := Tree.staleCount_run
  obtain ⟨events, htell, -⟩ := optimizeModule_tells hbuilt.consistent hrun
  exact ⟨report, run, events, b, hbuilt, hrun, htell, Tree.staleCount_recounts htell, hb, hone, hnone⟩

end Specializer
