import Specializer.Proofs.FixedPoint.Convergence
import Specializer.Proofs.FixedPoint.Tour

/-!
# Optimizing a second time

A pass that announces nothing leaves a tree that is `Stable`: every node it looked at would be left alone again, but for
one decision. A call of `__import__` is made static on the way down only if its namespaces have no side effects, and that
an import inside them runs no code is found out on the way up, without a word. So a second run can find work that the
first one has left behind. It does nothing if no import that is looked at can be made static any more, and announces
changes otherwise (`optimizeModule_again`); `Tree.lateImport` is a module where it does.
-/

namespace Specializer

open Specializer.Tree ReplaceM

/-! ## Units -/

section Units

variable {s : Settings} {r r' : Run} {unit : NodeId}

theorem RunM.onTree_eq_ok {α : Type} {action : TreeM α} {a : α} (h : RunM.onTree action s r = .ok a r') :
    ∃ t, action r.tree = .ok a t ∧ r' = { r with tree := t } := by
  unfold RunM.onTree at h
  cases haction : action r.tree with
  | ok b t =>
    rw [haction] at h
    cases h
    exact ⟨t, rfl, rfl⟩
  | error e t =>
    rw [haction] at h
    cases h

theorem RunM.query_eq_ok {α : Type} {question : Tree → Except TreeError α} {a : α}
    (h : RunM.onTree (TreeM.query question) s r = .ok a r') : question r.tree = .ok a ∧ r = r' := by
  obtain ⟨t, hquery, rfl⟩ := RunM.onTree_eq_ok h
  cases hquestion : question r.tree with
  | ok b =>
    cases hquery.symm.trans (run_query_ok hquestion)
    exact ⟨rfl, rfl⟩
  | error e => cases hquery.symm.trans (run_query_error hquestion)

/-- A run after a unit was walked. -/
def Run.walked (r : Run) (w : Workspace) : Run :=
  { r with tree := w.tree, report := { r.report with changes := w.changes } }

theorem withTrace_eq_ok {α : Type} {name : String} {action : ReplaceM α} {a : α}
    (h : RunM.withTrace unit name action s r = .ok a r') :
    ∃ w, action s ⟨r.tree, { unit, name, version := s.options.version }, r.report.changes⟩ = .ok a w ∧ r' = r.walked w := by
  unfold RunM.withTrace at h
  dsimp only at h
  cases haction : action s ⟨r.tree, { unit, name, version := s.options.version }, r.report.changes⟩ with
  | ok b w =>
    rw [haction] at h
    cases h
    exact ⟨w, rfl, rfl⟩
  | error e w =>
    rw [haction] at h
    cases h

/-- A unit that is reachable is walked with a fresh trace, any other is left out. -/
theorem runUnit_eq_ok (h : RunM.runUnit unit s r = .ok () r') :
    (r.tree.isReachable unit = false ∧ r' = r) ∨ ∃ trace w, trace.abortive = false ∧
      visitUnit unit s ⟨r.tree, trace, r.report.changes⟩ = .ok () w ∧ r' = r.walked w := by
  rw [RunM.runUnit, reads_bind_of_ok (show (get : RunM Run) s r = .ok r r from rfl)] at h
  cases hreach : r.tree.isReachable unit with
  | false =>
    rw [hreach] at h
    cases h
    exact Or.inl ⟨rfl, rfl⟩
  | true =>
    rw [if_pos hreach] at h
    obtain ⟨payload, r₁, hpayload, hwalk⟩ := reads_bind_eq_ok_iff.1 h
    obtain ⟨-, rfl⟩ := RunM.query_eq_ok hpayload
    obtain ⟨w, hvisit, rfl⟩ := withTrace_eq_ok hwalk
    exact Or.inr ⟨_, w, rfl, hvisit, rfl⟩

theorem tame_visitUnit (unit : NodeId) : Tame (visitUnit unit) := by
  exact .bind .tree fun t => .bind (tame_visit unit _ unit) fun _ => .ret ()

theorem runUnit_tame (h : RunM.runUnit unit s r = .ok () r') :
    (r.tree.Built → r'.tree.Built) ∧ r.report.changes.size ≤ r'.report.changes.size := by
  rcases runUnit_eq_ok h with ⟨-, rfl⟩ | ⟨trace, w, -, hvisit, rfl⟩
  · exact ⟨id, Nat.le_refl _⟩
  · exact ⟨(tame_visitUnit unit hvisit).built, (tame_visitUnit unit hvisit).grows⟩

/-- Units are walked one after the other without breaking the tree or forgetting a change. -/
theorem runUnits_tame : ∀ {units : List NodeId} {r : Run}, RunM.runUnits units s r = .ok () r' →
    (r.tree.Built → r'.tree.Built) ∧ r.report.changes.size ≤ r'.report.changes.size
  | [], r, h => by
    cases h
    exact ⟨id, Nat.le_refl _⟩
  | unit :: units, r, h => by
    obtain ⟨_, r₁, h₁, h₂⟩ := reads_bind_eq_ok_iff.1 h
    have hfirst := runUnit_tame h₁
    have hrest := runUnits_tame h₂
    exact ⟨hrest.1 ∘ hfirst.1, Nat.le_trans hfirst.2 hrest.2⟩

/-- A node is the root or the body of a function, and hangs below the root. -/
def Tree.IsUnit (t : Tree) (unit : NodeId) : Prop :=
  t.Reachable unit ∧ (t.root = some unit ∨ t.kind unit = .ok .functionBody)

theorem Tree.IsUnit.of_plain {t t' : Tree} (h : t.IsUnit unit) (hc : t.Consistent) (hc' : t'.Consistent)
    (hplain : t'.plain = t.plain) : t'.IsUnit unit := by
  have hreach : t'.isReachable unit = t.isReachable unit :=
    eq_of_plain (·.isReachable unit) (isReachable_plain · unit) hplain
  have hkind : t'.kind unit = t.kind unit := eq_of_plain (·.kind unit) (kind_plain · unit) hplain
  have hroot : t'.root = t.root := (congrArg Tree.root hplain :)
  refine ⟨hc'.isReachable_iff.1 (hreach.trans (hc.isReachable_iff.2 h.1)), ?_⟩
  rw [hroot, hkind]
  exact h.2

theorem tour_of_plain {t t' : Tree} (hplain : t'.plain = t.plain) : t'.tour = t.tour := by
  funext unit
  have hsize : t'.nodes.size = t.nodes.size := eq_of_plain (·.nodes.size) size_plain hplain
  simp only [tour, depthBound, hsize, tourUpTo_of_plain hplain]

end Units

/-! ## Quiet passes -/

/-- What walks of some units leave that announced nothing. -/
structure Toured (s : Settings) (units : List NodeId) (r r' : Run) : Prop where
  narrows : Narrows (fun z => ∃ unit ∈ units, r.tree.Within unit unit z) r.tree r'.tree
  rest : r' = { r with tree := r'.tree }
  idle : ∀ unit ∈ units, ∀ y ∈ r.tree.tour unit, Idle s unit r'.tree y
  spares : ∀ unit ∈ units, ∀ y ∈ r.tree.tour unit, Spares s r.tree y
  within : ∀ unit ∈ units, ∀ y ∈ r.tree.tour unit, ∀ z, r.tree.Within unit y z → r.tree.Within unit unit z

section Quiet

variable {s : Settings} {r r₁ r' : Run} {unit : NodeId} {units : List NodeId}

theorem runUnit_quiet (hbuilt : r.tree.Built) (hunit : r.tree.IsUnit unit) (hrun : RunM.runUnit unit s r = .ok () r')
    (hsize : r'.report.changes.size ≤ r.report.changes.size) : Toured s [unit] r r' := by
  have hreach : r.tree.isReachable unit = true := hbuilt.consistent.isReachable_iff.2 hunit.1
  rcases runUnit_eq_ok hrun with ⟨hnot, -⟩ | ⟨trace, w, habort, hvisit, rfl⟩
  · rw [hreach] at hnot
    cases hnot
  · rw [visitUnit, reads_bind_of_ok tree_ok] at hvisit
    obtain ⟨id', w₁, hvisit, hret⟩ := reads_bind_eq_ok_iff.1 hvisit
    cases hret
    have h := visit_quiet unit hbuilt hvisit hsize
    rw [show (⟨r.tree, trace, r.report.changes⟩ : Workspace).trace.abortive = false from habort] at h
    have hchanges : w.changes = r.report.changes := h.changes
    refine ⟨h.narrows.mono fun z hz => ⟨unit, by simp, hz⟩, ?_, ?_, ?_, ?_⟩
    · rw [Run.walked, hchanges]
    · exact List.forall_mem_singleton.2 h.idle
    · exact List.forall_mem_singleton.2 h.spares
    · exact List.forall_mem_singleton.2 h.within

/-- What is learnt in one unit is not within another. -/
theorem Toured.cons (h₁ : Toured s [unit] r r₁) (h₂ : Toured s units r₁ r') (hc : r.tree.Consistent)
    (hunits : ∀ u ∈ unit :: units, r.tree.IsUnit u) : Toured s (unit :: units) r r' := by
  have hplain := h₁.narrows.plain
  have htour := tour_of_plain hplain
  have hwithin {u : NodeId} : r₁.tree.Within u = r.tree.Within u := within_of_plain hplain
  have hnew : Narrows (fun z => ∃ u ∈ units, r.tree.Within u u z) r₁.tree r'.tree := h₂.narrows.mono fun z ⟨u, hu, hz⟩ =>
    ⟨u, hu, by rwa [hwithin] at hz⟩
  refine ⟨(h₁.narrows.mono ?_).trans (hnew.mono ?_), ?_, fun u hu y hy => ?_, fun u hu y hy => ?_, fun u hu y hy z hz => ?_⟩
  · rintro z ⟨u, hu, hz⟩
    exact ⟨u, by simp_all, hz⟩
  · rintro z ⟨u, hu, hz⟩
    exact ⟨u, by simp [hu], hz⟩
  · rw [h₂.rest, h₁.rest]
  · by_cases hlater : u ∈ units
    · exact h₂.idle u hlater y (by rwa [htour])
    · obtain rfl : u = unit := (List.mem_cons.1 hu).resolve_right hlater
      refine (h₁.idle u (by simp) y hy).frame hnew.plain fun z hz => hnew.get?_eq fun hkind => ?_
      rw [hwithin] at hz
      rw [show r₁.tree.kind z = r.tree.kind z from eq_of_plain (·.kind z) (kind_plain · z) hplain] at hkind
      rintro ⟨u', hu', hz'⟩
      have hsame := hc.unit_unique (hunits u (by simp)).2 (hunits u' (by simp [hu'])).2 (h₁.within u (by simp) y hy z hz) hz'
        (by simp [hkind])
      exact hlater (hsame ▸ hu')
  · rcases List.mem_cons.1 hu with rfl | hu
    · exact h₁.spares u (by simp) y hy
    · exact (h₂.spares u hu y (by rwa [htour])).of_narrows h₁.narrows
  · rcases List.mem_cons.1 hu with rfl | hu
    · exact h₁.within u (by simp) y hy z hz
    · have h := h₂.within u hu y (by rwa [htour]) z (by rwa [hwithin])
      rwa [hwithin] at h

theorem runUnits_quiet : ∀ {units : List NodeId} {r : Run}, r.tree.Built → (∀ unit ∈ units, r.tree.IsUnit unit) →
    RunM.runUnits units s r = .ok () r' → r'.report.changes.size ≤ r.report.changes.size → Toured s units r r'
  | [], r, _, _, hrun, _ => by
    cases hrun
    exact ⟨.refl _ _, rfl, nofun, nofun, nofun⟩
  | unit :: units, r, hbuilt, hunits, hrun, hsize => by
    obtain ⟨_, r₁, hfirst, hrest⟩ := reads_bind_eq_ok_iff.1 hrun
    have htame₁ := runUnit_tame hfirst
    have hgrows₂ := (runUnits_tame hrest).2
    have hbuilt₁ := htame₁.1 hbuilt
    have h₁ := runUnit_quiet hbuilt (hunits unit (by simp)) hfirst (by omega)
    refine h₁.cons (runUnits_quiet hbuilt₁ (fun u hu => ?_) hrest (by omega)) hbuilt.consistent hunits
    exact (hunits u (by simp [hu])).of_plain hbuilt.consistent hbuilt₁.consistent h₁.narrows.plain

/-! ## Stable trees -/

/-- Every node that a pass looks at is idle, and nothing is left to decide about the variables. -/
structure Tree.Stable (s : Settings) (t : Tree) : Prop where
  built : t.Built
  decided : ∃ count, TreeM.annotateReadOnly t = .ok count t
  idle : ∀ units, t.units = .ok units → ∀ unit ∈ units, t.IsUnit unit ∧ ∀ y ∈ t.tour unit, Idle s unit t y

/-- The imports that the next pass over a tree would make static. -/
def Tree.lateImports (s : Settings) (t : Tree) : List NodeId :=
  if s.options.constantFolding then
    match t.units with
    | .ok units => (units.flatMap t.tour).filter (t.isStaticImport s.options.version)
    | .error _ => []
  else []

theorem Tree.lateImports_eq_nil_iff {t : Tree} (hunits : t.units = .ok units) :
    t.lateImports s = [] ↔ ∀ unit ∈ units, ∀ y ∈ t.tour unit, Spares s t y := by
  cases hfolding : s.options.constantFolding with
  | false => simp [lateImports, Spares, hfolding]
  | true =>
    simp only [lateImports, Spares, hfolding, hunits, if_true, forall_const, List.filter_eq_nil_iff, List.mem_flatMap,
      Bool.not_eq_true]
    exact ⟨fun h unit hunit y hy => h y ⟨unit, hunit, hy⟩, fun h y ⟨unit, hunit, hy⟩ => h unit hunit y hy⟩

/-- The first two steps of a pass: deciding about the variables and listing the units. -/
theorem runPass_eq_ok (hbuilt : r.tree.Built) (hrun : RunM.runPass s r = .ok () r') :
    ∃ root count t units, r.tree.root = some root ∧ TreeM.annotateReadOnly r.tree = .ok count t ∧ t.Built ∧
      t.units = .ok units ∧ (∀ unit ∈ units, t.IsUnit unit) ∧ RunM.runUnits units s { r with tree := t } = .ok () r' := by
  obtain ⟨count, r₁, hfirst, hrun⟩ := reads_bind_eq_ok_iff.1 hrun
  obtain ⟨t, hdecide, rfl⟩ := RunM.onTree_eq_ok hfirst
  obtain ⟨units, r₂, hsecond, hrun⟩ := reads_bind_eq_ok_iff.1 hrun
  obtain ⟨hunits, rfl⟩ := RunM.query_eq_ok hsecond
  cases hroot : r.tree.root with
  | none =>
    -- without a root there are no units
    have hsame : TreeM.annotateReadOnly r.tree = .ok 0 r.tree := by
      rw [TreeM.annotateReadOnly, run_get_bind, hroot]
      rfl
    cases hdecide.symm.trans hsame
    rw [Tree.units, hroot] at hunits
    cases hunits
  | some root =>
    obtain ⟨rebindings, count', -, hdecide', hbuilt'⟩ := hbuilt.annotateReadOnly_ok hroot
    cases hdecide.symm.trans hdecide'
    obtain ⟨units', hunits', hall⟩ := hbuilt'.consistent.units_ok hroot
    cases hunits.symm.trans hunits'
    exact ⟨root, count, _, units, rfl, hdecide, hbuilt', hunits, hall, hrun⟩

theorem runPass_tame (hbuilt : r.tree.Built) (hrun : RunM.runPass s r = .ok () r') :
    r'.tree.Built ∧ r.report.changes.size ≤ r'.report.changes.size := by
  obtain ⟨-, -, t, units, -, -, hbuilt', -, -, hrun⟩ := runPass_eq_ok hbuilt hrun
  have htame := runUnits_tame hrun
  exact ⟨htame.1 hbuilt', htame.2⟩

/-- **A pass that announces nothing leaves a stable tree**, and found no import that can be made static. -/
theorem runPass_quiet (hbuilt : r.tree.Built) (hrun : RunM.runPass s r = .ok () r')
    (hsize : r'.report.changes.size ≤ r.report.changes.size) :
    r'.tree.Stable s ∧ r' = { r with tree := r'.tree } ∧
      ∀ count, TreeM.annotateReadOnly r.tree = .ok count r.tree → r.tree.lateImports s = [] := by
  have hbuilt' := (runPass_tame hbuilt hrun).1
  obtain ⟨root, count, t, units, hroot, hdecide, hbuilt₁, hunits, hall, hrun⟩ := runPass_eq_ok hbuilt hrun
  have h := runUnits_quiet hbuilt₁ hall hrun hsize
  have hplain : r'.tree.plain = t.plain := h.narrows.plain
  refine ⟨⟨hbuilt', ?_, fun units' hunits' unit hunit => ?_⟩, h.rest, fun count' hsame => ?_⟩
  · exact hbuilt.annotateReadOnly_again hroot hdecide hbuilt' hplain
  · have hsame : r'.tree.units = t.units := eq_of_plain (·.units) units_plain hplain
    cases (hsame.trans hunits).symm.trans hunits'
    refine ⟨(hall unit hunit).of_plain hbuilt₁.consistent hbuilt'.consistent hplain, fun y hy => ?_⟩
    rw [tour_of_plain hplain] at hy
    exact h.idle unit hunit y hy
  · cases hdecide.symm.trans hsame
    exact (lateImports_eq_nil_iff hunits).2 h.spares

/-- What changes nothing but the trace leaves a run as it is. -/
theorem withTrace_rests {α : Type} {action : ReplaceM α} {a : α} {ends : Bool} (name : String)
    (h : Traverses s r.tree action a false ends) : RunM.withTrace unit name action s r = .ok a r := by
  obtain ⟨trace, -, hrun⟩ := h { unit, name, version := s.options.version } r.report.changes rfl
  unfold RunM.withTrace
  dsimp only
  rw [hrun]

/-- A unit whose nodes are idle, and none of whose imports can be made static, is left as it is. -/
theorem runUnit_rests (hc : r.tree.Consistent) (hunit : r.tree.IsUnit unit) (hidle : ∀ y ∈ r.tree.tour unit, Idle s unit r.tree y)
    (hspares : ∀ y ∈ r.tree.tour unit, Spares s r.tree y) : RunM.runUnit unit s r = .ok () r := by
  have hreach : r.tree.isReachable unit = true := hc.isReachable_iff.2 hunit.1
  obtain ⟨n, hn⟩ := hc.live_of_reachable hunit.1
  have hpayload : r.tree.payload unit = .ok n.payload := by
    rw [Tree.payload, node_of_get? hn]
    rfl
  have hdepth : r.tree.nodes.size ≤ r.tree.depth unit + depthBound r.tree := by
    unfold depthBound
    omega
  have hwalk := visit_rests (s := s) hc hn hdepth fun y hy => ⟨hidle y hy, hspares y hy⟩
  rw [RunM.runUnit, reads_bind_of_ok (show (get : RunM Run) s r = .ok r r from rfl), if_pos hreach,
    reads_bind_of_ok (Running.query_ok hpayload)]
  exact withTrace_rests _ (.after_rests .look (hwalk.bind .ret))

theorem runUnits_rests (hc : r.tree.Consistent) : ∀ {units : List NodeId}, (∀ unit ∈ units, r.tree.IsUnit unit) →
    (∀ unit ∈ units, ∀ y ∈ r.tree.tour unit, Idle s unit r.tree y) →
    (∀ unit ∈ units, ∀ y ∈ r.tree.tour unit, Spares s r.tree y) → RunM.runUnits units s r = .ok () r
  | [], _, _, _ => rfl
  | unit :: units, hall, hidle, hspares => by
    have hfirst := runUnit_rests hc (hall unit (by simp)) (hidle unit (by simp)) (hspares unit (by simp))
    rw [RunM.runUnits, reads_bind_of_ok hfirst]
    exact runUnits_rests hc (fun u hu => hall u (by simp [hu])) (fun u hu => hidle u (by simp [hu]))
      fun u hu => hspares u (by simp [hu])

/-- **A pass over a stable tree does nothing**, if no import can be made static. -/
theorem runPass_rests (h : r.tree.Stable s) (hroot : r.tree.root ≠ none) (hlate : r.tree.lateImports s = []) :
    RunM.runPass s r = .ok () r := by
  obtain ⟨count, hdecide⟩ := h.decided
  obtain ⟨root, hroot⟩ := Option.ne_none_iff_exists'.1 hroot
  obtain ⟨units, hunits, -⟩ := h.built.consistent.units_ok hroot
  have hall := h.idle units hunits
  rw [RunM.runPass, reads_bind_of_ok (Running.onTree_ok hdecide), reads_bind_of_ok (Running.query_ok hunits)]
  exact runUnits_rests h.built.consistent (fun u hu => (hall u hu).1) (fun u hu => (hall u hu).2)
    ((lateImports_eq_nil_iff hunits).1 hlate)

end Quiet

/-! ## The second run -/

section Again

variable {s : Settings} {r' : Run}

/-- Passes end with a stable tree, and forget no change. -/
theorem runPasses_stable : ∀ {left : Nat} {r : Run}, r.tree.Built → RunM.runPasses left s r = .ok () r' →
    r'.tree.Stable s ∧ r.report.changes.size ≤ r'.report.changes.size
  | 0, _, _, hrun => nomatch hrun
  | left + 1, r, hbuilt, hrun => by
    cases hpass : RunM.runPass s r with
    | error e r₁ =>
      rw [runPasses_of_error hpass] at hrun
      cases hrun
    | ok _ r₁ =>
      obtain ⟨hbuilt₁, hgrows⟩ := runPass_tame hbuilt hpass
      rw [runPasses_of_ok hpass] at hrun
      split at hrun
      · next hsame =>
        cases hrun
        exact ⟨(runPass_quiet hbuilt hpass (Nat.le_of_eq hsame)).1, hgrows⟩
      · have hrest := runPasses_stable (r := r₁.counted) hbuilt₁ hrun
        exact ⟨hrest.1, Nat.le_trans hgrows hrest.2⟩

/-- The steps of a successful run. -/
theorem optimizeModule_eq_ok {t : Tree} {report : OptimizationReport} {run : Run} :
    optimizeModule s t = .ok report run ↔
      RunM.runPasses s.options.maxPasses s { tree := t } = .ok () run ∧ run.tree.validate = .ok () ∧ report = run.report := by
  have hread : (read : RunM Settings) s { tree := t } = .ok s { tree := t } := rfl
  unfold optimizeModule RunM.optimize
  rw [reads_bind_of_ok hread]
  constructor
  · intro h
    obtain ⟨_, r₁, hpasses, h⟩ := reads_bind_eq_ok_iff.1 h
    obtain ⟨_, r₂, hquery, h⟩ := reads_bind_eq_ok_iff.1 h
    obtain ⟨hvalid, rfl⟩ := RunM.query_eq_ok hquery
    cases h
    exact ⟨hpasses, hvalid, rfl⟩
  · rintro ⟨hpasses, hvalid, rfl⟩
    rw [reads_bind_of_ok hpasses, reads_bind_of_ok (Running.query_ok hvalid)]
    rfl

/-- **What a second run does.** If no import is left that can be made static, it is one pass that changes nothing at all;
a second run that announces no change tells that there was none. -/
theorem optimizeModule_again (s : Settings) {t : Tree} {report : OptimizationReport} {run : Run} (hbuilt : t.Built)
    (h : optimizeModule s t = .ok report run) :
    (run.tree.lateImports s = [] → optimizeModule s run.tree =
      .ok { passes := 1 } { tree := run.tree, report := { passes := 1 }, state := .stable }) ∧
    ∀ report' run', optimizeModule s run.tree = .ok report' run' → report'.changes = {} → run.tree.lateImports s = [] := by
  obtain ⟨hpasses, hvalid, -⟩ := optimizeModule_eq_ok.1 h
  have hstable := (runPasses_stable hbuilt hpasses).1
  obtain ⟨count, hdecided⟩ := hstable.decided
  obtain ⟨root, hroot, -⟩ := hstable.built.consistent.validate_eq_ok_iff.1 hvalid
  -- the first run had at least one pass, so the second has one too
  obtain ⟨left, hleft⟩ : ∃ left, s.options.maxPasses = left + 1 := by
    cases hmax : s.options.maxPasses with
    | zero =>
      rw [hmax] at hpasses
      cases hpasses
    | succ left => exact ⟨left, rfl⟩
  refine ⟨fun hlate => ?_, fun report' run' h' hquiet => ?_⟩
  · have hpass := runPass_rests (r := { tree := run.tree }) hstable (by simp [hroot]) hlate
    refine optimizeModule_eq_ok.2 ⟨?_, hvalid, rfl⟩
    rw [hleft, runPasses_of_ok hpass, if_pos rfl]
    rfl
  · obtain ⟨hpasses', -, rfl⟩ := optimizeModule_eq_ok.1 h'
    rw [hleft] at hpasses'
    have hbuilt' : ({ tree := run.tree } : Run).tree.Built := hstable.built
    cases hpass : RunM.runPass s { tree := run.tree } with
    | error e r₁ =>
      rw [runPasses_of_error hpass] at hpasses'
      cases hpasses'
    | ok _ r₁ =>
      have hgrows : r₁.report.changes.size ≤ run'.report.changes.size := by
        rw [runPasses_of_ok hpass] at hpasses'
        split at hpasses'
        · cases hpasses'
          exact Nat.le_refl _
        · exact (runPasses_stable (r := r₁.counted) (runPass_tame hbuilt' hpass).1 hpasses').2
      rw [hquiet] at hgrows
      exact (runPass_quiet hbuilt' hpass hgrows).2.2 count hdecided

/-- What a second run finds on a module that the first one has changed. -/
theorem optimizeModule_again_keywordCall : ∃ report run,
    optimizeModule ⟨{}, .ofTable []⟩ Tree.keywordCall = .ok report run ∧ report.changes ≠ {} ∧
      optimizeModule ⟨{}, .ofTable []⟩ run.tree =
        .ok { passes := 1 } { tree := run.tree, report := { passes := 1 }, state := .stable } := by
  have hfirst : (match optimizeModule ⟨{}, .ofTable []⟩ Tree.keywordCall with
      | .ok report run => decide (report.changes ≠ {} ∧ run.tree.lateImports ⟨{}, .ofTable []⟩ = [])
      | .error _ _ => false) = true := by decide +kernel
  generalize hrun : optimizeModule ⟨{}, .ofTable []⟩ Tree.keywordCall = outcome at hfirst
  cases outcome with
  | error e run => cases hfirst
  | ok report run =>
    obtain ⟨hchanges, hlate⟩ := of_decide_eq_true hfirst
    exact ⟨report, run, rfl, hchanges, (optimizeModule_again _ ⟨_, rfl⟩ hrun).1 hlate⟩

end Again

/-- The module `__import__("x", <import of math>)`, whose second argument runs no code if `math` is built in. -/
def Tree.lateImport : Tree :=
  .applyAll {} [
    .newNode .module default (.scope "m") [.one none],
    .newNode .constantRef default (.constant (.str "x")) [],
    .newNode .importModule default (.moduleImport ⟨⟨"math"⟩, [], 0⟩) [],
    .newNode .builtinImport default .none [.filled ⟨1⟩, .filled ⟨2⟩, .one none, .one none, .one none],
    .newNode .statementExpressionOnly default .none [.filled ⟨3⟩],
    .newNode .statementsSequence default .none [.many [⟨4⟩]],
    .setBody ⟨0⟩ ⟨5⟩,
    .setRoot ⟨0⟩]

/-- The first run changes nothing, and finds out that the import of `math` runs no code; the second run announces that
the call became a static import. -/
theorem lateImport_runsAgain : ∃ run report' run',
    optimizeModule ⟨{}, .ofTable [(⟨"math"⟩, .builtIn)]⟩ Tree.lateImport = .ok { passes := 1 } run ∧
      optimizeModule ⟨{}, .ofTable [(⟨"math"⟩, .builtIn)]⟩ run.tree = .ok report' run' ∧ report'.passes = 2 ∧
      report'.changes ≠ {} := by
  have hruns : (match optimizeModule ⟨{}, .ofTable [(⟨"math"⟩, .builtIn)]⟩ Tree.lateImport with
      | .ok report run => match optimizeModule ⟨{}, .ofTable [(⟨"math"⟩, .builtIn)]⟩ run.tree with
        | .ok report' _ => decide (report = { passes := 1 } ∧ report'.passes = 2 ∧ report'.changes ≠ {})
        | .error _ _ => false
      | .error _ _ => false) = true := by decide +kernel
  generalize hfirst : optimizeModule ⟨{}, .ofTable [(⟨"math"⟩, .builtIn)]⟩ Tree.lateImport = outcome at hruns
  cases outcome with
  | error e run => cases hruns
  | ok report run =>
    dsimp only at hruns
    generalize hsecond : optimizeModule ⟨{}, .ofTable [(⟨"math"⟩, .builtIn)]⟩ run.tree = outcome' at hruns
    cases outcome' with
    | error e run' => cases hruns
    | ok report' run' =>
      obtain ⟨rfl, hpasses, hchanges⟩ := of_decide_eq_true hruns
      exact ⟨run, report', run', rfl, hsecond, hpasses, hchanges⟩

end Specializer
