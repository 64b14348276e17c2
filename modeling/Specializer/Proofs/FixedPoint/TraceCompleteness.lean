import Specializer.Proofs.FixedPoint.Journal
import Specializer.Proofs.Replacement.Exits

/-!
# The trace of a walk is complete

A walk tells its trace of everything that may raise. `Report` is what is known after a part of a walk: the nodes that the
walk is done with are covered, so are the nodes below them unless they were left out, and a part of the walk puts nothing
but such nodes below nodes that were there before. Each part of a walk keeps this (`Walks.reports`), so that in the end
every node of the unit is covered, apart from what is below the functions inside it and from the statements after control
has ended (`visit_records`).
-/

namespace Specializer

open Specializer.Tree ReplaceM

namespace ReplaceM

/-- What is known after a part of a walk that wrote some events into the journal. -/
structure Report (unit : NodeId) (w w' : Workspace) (events : List Event) : Prop extends Remembers w w' where
  evolved : w.tree.Evolved w'.tree
  /-- New children of old nodes are nodes that the walk is done with. -/
  link : ∀ {x p}, p.index < w.tree.nodes.size → w'.tree.IsParent x p → w.tree.IsParent x p ∨ .done x ∈ events
  known : ∀ {y}, .done y ∈ events → y.index < w'.tree.nodes.size
  covered : ∀ {y}, .done y ∈ events → y ≠ unit → Covered w' y
  /-- The walk is done with the nodes below as well, or left them out. -/
  inner : ∀ {x y n}, .done y ∈ events → w'.tree.get? y = some n → (n.kind = .functionBody → y = unit) →
    w'.tree.IsParent x y → .done x ∈ events ∨ .leftOut x ∈ events
  ended : ∀ {x}, .leftOut x ∈ events → w'.trace.abortive = true
  raised : ∀ {step : Step}, .step step ∈ events → step.visitor? = none →
    step.before.kind step.node = .ok .raiseException → w'.trace.abortive = true

variable {s : Settings} {unit id mid id' : NodeId} {w w₁ w' : Workspace} {n : Node} {events more : List Event}
  {visitors : List Visitor}

namespace Report

theorem refl (hc : w.tree.Consistent) (unit : NodeId) : Report unit w w [] :=
  ⟨.refl w, .refl hc, fun _ h => .inl h, nofun, nofun, nofun, nofun, nofun⟩

/-- What is known after two parts of a walk. -/
theorem trans (hu : w.tree.Unmarked) (h : Report unit w w₁ events) (h' : Report unit w₁ w' more) :
    Report unit w w' (events ++ more) := by
  have hsize {p : NodeId} (hp : p.index < w.tree.nodes.size) : p.index < w₁.tree.nodes.size :=
    Nat.lt_of_lt_of_le hp h.evolved.size
  refine ⟨h.toRemembers.trans h'.toRemembers, h.evolved.trans h'.evolved, fun hp hlink => ?_, fun hy => ?_, fun hy hunit => ?_,
    fun hy hn hkind hlink => ?_, fun hx => ?_, fun hstep hcomputed hraise => ?_⟩
  · rcases h'.link (hsize hp) hlink with hlink₁ | hdone
    · exact (h.link hp hlink₁).imp_right (List.mem_append_left _)
    · exact .inr (List.mem_append_right _ hdone)
  · rcases List.mem_append.1 hy with hy | hy
    · exact Nat.lt_of_lt_of_le (h.known hy) h'.evolved.size
    · exact h'.known hy
  · rcases List.mem_append.1 hy with hy | hy
    · exact (h.covered hy hunit).later (h.known hy) (h.evolved.unmarked hu) h'.evolved h'.toRemembers
    · exact h'.covered hy hunit
  · rw [List.mem_append, List.mem_append]
    rcases List.mem_append.1 hy with hy | hy
    · rcases h'.link (h.known hy) hlink with hlink₁ | hdone
      · obtain ⟨n₁, hn₁, hkeeps⟩ := h'.evolved.old (h.known hy) hn
        exact (h.inner hy hn₁ (hkeeps.kind ▸ hkind) hlink₁).imp .inl .inl
      · exact .inl (.inr hdone)
    · exact (h'.inner hy hn hkind hlink).imp .inr .inr
  · rcases List.mem_append.1 hx with hx | hx
    · exact h'.abortive (h.ended hx)
    · exact h'.ended hx
  · rcases List.mem_append.1 hstep with hstep | hstep
    · exact h'.abortive (h.raised hstep hcomputed hraise)
    · exact h'.raised hstep hcomputed hraise

/-- Statements that are left out. -/
theorem leaveOut (hc : w.tree.Consistent) (unit : NodeId) (habort : w.trace.abortive = true) (ids : List NodeId) :
    Report unit w w (ids.map .leftOut) :=
  ⟨.refl w, .refl hc, fun _ h => .inl h, by simp, by simp, by simp, fun _ => habort, fun _ _ _ => habort⟩

/-- The walk is done with a node after a last step in its place. -/
theorem finish (h : Report unit w w₁ events) (hu : w.tree.Unmarked) (hsteps : Steps w₁ w' id id') (last : List Step)
    (hlast : ∀ step ∈ last, step.visitor? = none → step.before.kind step.node = .ok .raiseException → w'.trace.abortive = true)
    (hcovered : id' ≠ unit → Covered w' id')
    (hinner : ∀ {n x}, w'.tree.get? id' = some n → (n.kind = .functionBody → id' = unit) → w'.tree.IsParent x id' →
      .done x ∈ events ∨ .leftOut x ∈ events) :
    Report unit w w' (events ++ last.map .step ++ [.done id']) := by
  have hstepped := hsteps.stepped
  have hdone {y : NodeId} : .done y ∈ events ++ last.map .step ++ [.done id'] ↔ .done y ∈ events ∨ y = id' := by simp
  have hleft {y : NodeId} : .leftOut y ∈ events ++ last.map .step ++ [.done id'] ↔ .leftOut y ∈ events := by simp
  have hstep {step : Step} : .step step ∈ events ++ last.map .step ++ [.done id'] ↔ .step step ∈ events ∨ step ∈ last := by
    simp
  refine ⟨h.toRemembers.trans hsteps.toRemembers, h.evolved.trans hstepped.toEvolved, fun hp hlink => ?_, fun hy => ?_,
    fun hy hunit => ?_, fun {x y n} hy hn hkind hlink => ?_, fun hx => ?_, fun hmem hcomputed hraise => ?_⟩
  · rw [hdone]
    rcases hstepped.link (Nat.lt_of_lt_of_le hp h.evolved.size) hlink with hlink₁ | hnew
    · exact (h.link hp hlink₁).imp_right .inl
    · exact .inr (.inr hnew)
  · rcases hdone.1 hy with hy | rfl
    · exact Nat.lt_of_lt_of_le (h.known hy) hstepped.size
    · exact hstepped.known
  · rcases hdone.1 hy with hy | rfl
    · exact (h.covered hy hunit).later (h.known hy) (h.evolved.unmarked hu) hstepped.toEvolved hsteps.toRemembers
    · exact hcovered hunit
  · rw [hdone, hleft]
    by_cases hnew : y = id'
    · subst hnew
      exact (hinner hn hkind hlink).imp_left .inl
    · have hy := (hdone.1 hy).resolve_right hnew
      rcases hstepped.link (h.known hy) hlink with hlink₁ | hx
      · obtain ⟨n₁, hn₁, hkeeps⟩ := hstepped.old (h.known hy) hn
        exact (h.inner hy hn₁ (hkeeps.kind ▸ hkind) hlink₁).imp_left .inl
      · exact .inl (.inr hx)
  · exact hsteps.abortive (h.ended (hleft.1 hx))
  · rcases hstep.1 hmem with hmem | hmem
    · exact hsteps.abortive (h.raised hmem hcomputed hraise)
    · exact hlast _ hmem hcomputed hraise

/-- The walk is done with a node once it has been computed. -/
theorem compute (h : Report unit w w₁ events) (hu : w.tree.Unmarked) (hid : id.index < w₁.tree.nodes.size)
    (hchildren : ∀ x, w₁.tree.IsParent x id → .done x ∈ events ∨ .leftOut x ∈ events)
    (hall : w₁.tree.kind id = .ok .sideEffects → ∀ x, w₁.tree.IsParent x id → .done x ∈ events)
    (hrun : (computeNode id >>= applyComputed id) s w₁ = .ok id' w') :
    Report unit w w' (events ++ [.step ⟨none, id, w₁.tree, id', w'.tree⟩] ++ [.done id']) := by
  have hc := h.evolved.consistent
  have hu₁ := h.evolved.unmarked hu
  have hsteps := compute_steps id hc hid hrun
  have hstepped := hsteps.stepped
  have hremains := compute_remains hc hu₁ hid hrun
  refine h.finish hu hsteps [_] (fun step hmem _ hraise => ?_) (fun hunit => ?_) fun {n x} hn hfunction hx => ?_
  · obtain rfl := List.mem_singleton.1 hmem
    exact compute_aborts hraise hc hid hrun
  · cases hremains with
    | itself hcovered => exact hcovered
    | leaf _ hcovered _ => exact hcovered
    | operand hkind hchild =>
      have hdone := hall hkind _ hchild
      exact (h.covered hdone hunit).later (h.known hdone) hu₁ hstepped.toEvolved hsteps.toRemembers
  · have hnot : x ≠ id' := hstepped.consistent.ne_of_isParent hx
    cases hremains with
    | itself _ => exact hchildren x ((hstepped.link hid hx).resolve_right hnot)
    | leaf _ _ hleaf => exact absurd hx (hleaf x)
    | operand hkind hchild =>
      have hdone := hall hkind _ hchild
      obtain ⟨n₁, hn₁, hkeeps⟩ := hstepped.old (h.known hdone) hn
      exact h.inner hdone hn₁ (hkeeps.kind ▸ hfunction) ((hstepped.link (h.known hdone) hx).resolve_right hnot)

/-- Looks at a node come before everything else that is done in its place. -/
theorem after_enters (hsteps : Steps w w₁ id mid) (looks : List Step) (hlooks : ∀ step ∈ looks, step.visitor? ≠ none)
    (h : Report unit w₁ w' (events ++ [.done id'])) (hgone : id' ≠ mid → w'.tree.get? mid = none) :
    Report unit w w' (looks.map .step ++ events ++ [.done id']) := by
  rw [List.append_assoc]
  have hdone {y : NodeId} : .done y ∈ looks.map .step ++ (events ++ [.done id']) ↔ .done y ∈ events ++ [.done id'] := by simp
  have hleft {y : NodeId} : .leftOut y ∈ looks.map .step ++ (events ++ [.done id']) ↔ .leftOut y ∈ events ++ [.done id'] := by
    simp
  refine ⟨hsteps.toRemembers.trans h.toRemembers, hsteps.stepped.toEvolved.trans h.evolved, fun {x p} hp hlink => ?_,
    fun hy => h.known (hdone.1 hy), fun hy => h.covered (hdone.1 hy), fun hy hn hkind hlink => ?_,
    fun hx => h.ended (hleft.1 hx), fun {step} hmem hcomputed => ?_⟩
  · rw [hdone]
    rcases h.link (Nat.lt_of_lt_of_le hp hsteps.stepped.size) hlink with hlink₁ | hx
    · rcases hsteps.stepped.link hp hlink₁ with hlink₀ | rfl
      · exact .inl hlink₀
      · -- the node that the visitors left is still there
        by_cases hsame : id' = x
        · exact .inr (hsame ▸ by simp)
        · rw [IsParent, parent?, hgone hsame] at hlink
          cases hlink
    · exact .inr hx
  · rw [hdone, hleft]
    exact h.inner (hdone.1 hy) hn hkind hlink
  · rcases List.mem_append.1 hmem with hmem | hmem
    · obtain ⟨_, hlook, ⟨⟩⟩ := List.mem_map.1 hmem
      exact absurd hcomputed (hlooks step hlook)
    · exact h.raised hmem hcomputed

end Report

end ReplaceM

/-! ## Parts of a walk -/

section Parts

variable {s : Settings} {unit id id' : NodeId} {w w' : Workspace} {events : List Event} {visitors : List Visitor}
  {task : Task}

/-- Looks are steps in one place. -/
theorem Enters.steps (h : Enters s visitors id w events id' w') : w.tree.Consistent → id.index < w.tree.nodes.size →
    Steps w w' id id' ∧ ∃ looks : List Step, events = looks.map .step ∧ ∀ step ∈ looks, step.visitor? ≠ none := by
  induction h with
  | nil => exact fun hc hid => ⟨⟨.refl _, .refl hc hid⟩, [], rfl, nofun⟩
  | cons hlook _ ih =>
    intro hc hid
    have hfirst := enter_steps _ _ hc hid hlook
    obtain ⟨hrest, looks, rfl, hlooks⟩ := ih hfirst.stepped.consistent hfirst.stepped.known
    refine ⟨hfirst.trans hid hrest, _ :: looks, rfl, ?_⟩
    rintro step (_ | ⟨_, hmem⟩)
    · nofun
    · exact hlooks step hmem

/-- What is known after a part of a walk, and what has become of the children it went through. -/
def Task.Reports (unit : NodeId) (w : Workspace) (events : List Event) (id' : NodeId) (w' : Workspace) : Task → Prop
  | .node id | .entered id => Report unit w w' (events ++ [.done id']) ∧ (id' ≠ id → w'.tree.get? id = none)
  | .children parent inSequence ids => Report unit w w' events ∧ ∀ y, w'.tree.IsParent y parent →
      .done y ∈ events ∨ (inSequence = true ∧ .leftOut y ∈ events) ∨ (w.tree.IsParent y parent ∧ y ∉ ids)

namespace Task.Reports

variable {mid : NodeId} {w₁ : Workspace} {n : Node} {more : List Event}

/-- The walk went through all children of a node. -/
theorem of_children {inSequence : Bool} {x : NodeId}
    (h : (Task.children id inSequence n.children).Reports unit w events id' w') (hc : w.tree.Consistent)
    (hn : w.tree.get? id = some n) (hx : w'.tree.IsParent x id) :
    .done x ∈ events ∨ (inSequence = true ∧ .leftOut x ∈ events) := by
  rcases h.2 x hx with hdone | hleft | ⟨hx₀, hnot⟩
  · exact .inl hdone
  · exact .inr hleft
  · exact absurd ((hc.isParent_iff hn).1 hx₀) hnot

/-- The visitors look at a node before its children are visited. -/
theorem enter {looks : List Event} (hc : w.tree.Consistent) (hu : w.tree.Unmarked) (hid : id.index < w.tree.nodes.size)
    (henters : Enters s visitors id w looks mid w₁)
    (ih : w₁.tree.Consistent → w₁.tree.Unmarked → mid.index < w₁.tree.nodes.size →
      (Task.entered mid).Reports unit w₁ more id' w') :
    (Task.node id).Reports unit w (looks ++ more) id' w' := by
  obtain ⟨hsteps, looks, rfl, hlooks⟩ := henters.steps hc hid
  have hstepped := hsteps.stepped
  obtain ⟨hreport, hgone⟩ := ih hstepped.consistent (hstepped.unmarked hu) hstepped.known
  refine ⟨.after_enters hsteps looks hlooks hreport hgone, fun hne => ?_⟩
  by_cases hmid : mid = id
  · exact hmid ▸ hgone (hmid ▸ hne)
  · exact hreport.evolved.stale (Nat.lt_of_lt_of_le hid hstepped.size) (hstepped.gone hmid)

/-- The walk of a unit stays out of the functions inside it. -/
theorem function (hc : w.tree.Consistent) (hu : w.tree.Unmarked) (hn : w.tree.get? id = some n)
    (hkind : n.kind = .functionBody) (hunit : id ≠ unit) : (Task.entered id).Reports unit w [] id w := by
  have hsteps : Steps w w id id := ⟨.refl w, .refl hc (lt_size_of_get? hn)⟩
  refine ⟨(Report.refl hc unit).finish hu hsteps [] nofun (fun _ => ?_) fun hn' hfunction _ => ?_, fun hne => absurd rfl hne⟩
  · exact .of_silent hu hn (by rw [hkind]; rfl)
  · obtain rfl := Option.some.inj (hn.symm.trans hn')
    exact absurd (hfunction hkind) hunit

/-- The unit itself is not computed. -/
theorem inUnit {inSequence : Bool} (hc : w.tree.Consistent) (hu : w.tree.Unmarked) (hn : w.tree.get? unit = some n)
    (h : (Task.children unit inSequence n.children).Reports unit w events unit w') :
    (Task.entered unit).Reports unit w events unit w' := by
  have hevolved := h.1.evolved
  have hsteps : Steps w' w' unit unit :=
    ⟨.refl w', .refl hevolved.consistent (Nat.lt_of_lt_of_le (lt_size_of_get? hn) hevolved.size)⟩
  refine ⟨?_, fun hne => absurd rfl hne⟩
  have hfinish := h.1.finish hu hsteps [] nofun (fun hne => absurd rfl hne) fun _ _ hx =>
    (h.of_children hc hn hx).imp_right And.right
  simpa using hfinish

/-- Any other node is computed once its children have been visited. -/
theorem compute (hc : w.tree.Consistent) (hu : w.tree.Unmarked) (hn : w.tree.get? id = some n)
    (h : (Task.children id (n.kind = .statementsSequence) n.children).Reports unit w events id w₁)
    (hcompute : (computeNode id >>= applyComputed id) s w₁ = .ok id' w') :
    (Task.entered id).Reports unit w (events ++ [.step ⟨none, id, w₁.tree, id', w'.tree⟩]) id' w' := by
  have hid := lt_size_of_get? hn
  have hid₁ : id.index < w₁.tree.nodes.size := Nat.lt_of_lt_of_le hid h.1.evolved.size
  refine ⟨h.1.compute hu hid₁ (fun x hx => (h.of_children hc hn hx).imp_right And.right) (fun hkind₁ x hx => ?_) hcompute,
    (compute_steps id h.1.evolved.consistent hid₁ hcompute).stepped.gone⟩
  rcases h.of_children hc hn hx with hdone | ⟨hsequence, -⟩
  · exact hdone
  · -- only a sequence of statements leaves children out
    obtain ⟨n₁, hn₁, hsideEffects⟩ := kind_eq_ok_iff.1 hkind₁
    obtain ⟨m, hm, hkeeps⟩ := h.1.evolved.old hid hn₁
    obtain rfl := Option.some.inj (hn.symm.trans hm)
    rw [← hkeeps.kind, hsideEffects] at hsequence
    cases hsequence

/-- Control has ended before the rest of a sequence. -/
theorem ended {parent : NodeId} {ids : List NodeId} (hc : w.tree.Consistent) (habort : w.trace.abortive = true) :
    (Task.children parent true ids).Reports unit w (ids.map .leftOut) id' w := by
  refine ⟨.leaveOut hc unit habort ids, fun y hy => ?_⟩
  by_cases hmem : y ∈ ids
  · exact .inr (.inl ⟨rfl, List.mem_map_of_mem hmem⟩)
  · exact .inr (.inr ⟨hy, hmem⟩)

/-- The children are visited one after another. -/
theorem child {parent child : NodeId} {inSequence : Bool} {rest : List NodeId} (hu : w.tree.Unmarked)
    (hparent : parent.index < w.tree.nodes.size) (hfirst : (Task.node child).Reports unit w events id' w₁)
    (hrest : (Task.children parent inSequence rest).Reports unit w₁ more parent w') :
    (Task.children parent inSequence (child :: rest)).Reports unit w (events ++ [.done id'] ++ more) parent w' := by
  refine ⟨hfirst.1.trans hu hrest.1, fun y hy => ?_⟩
  rcases hrest.2 y hy with hdone | ⟨hsequence, hleft⟩ | ⟨hy₁, hnot⟩
  · exact .inl (List.mem_append_right _ hdone)
  · exact .inr (.inl ⟨hsequence, List.mem_append_right _ hleft⟩)
  rcases hfirst.1.link hparent hy₁ with hy₀ | hdone
  · by_cases hchild : y = child
    · -- the child is still there, so nothing has taken its place
      by_cases hsame : id' = child
      · exact .inl (List.mem_append_left _ (by simp [hchild, hsame]))
      · rw [IsParent, parent?, hchild, hfirst.2 hsame] at hy₁
        cases hy₁
    · exact .inr (.inr ⟨hy₀, by simp [hchild, hnot]⟩)
  · exact .inl (List.mem_append_left _ hdone)

/-- A child that was moved away meanwhile is not visited. -/
theorem moved {parent child : NodeId} {inSequence : Bool} {rest : List NodeId} (hparent : ¬ w.tree.IsParent child parent)
    (h : (Task.children parent inSequence rest).Reports unit w events parent w') :
    (Task.children parent inSequence (child :: rest)).Reports unit w events parent w' := by
  refine ⟨h.1, fun y hy => (h.2 y hy).imp_right (.imp_right fun hkept => ⟨hkept.1, ?_⟩)⟩
  rintro (_ | ⟨_, hmem⟩)
  · exact hparent hkept.1
  · exact hkept.2 hmem

end Task.Reports

theorem Walks.reports (h : Walks s unit task w events id' w') : w.tree.Consistent → w.tree.Unmarked →
    task.place.index < w.tree.nodes.size → task.Reports unit w events id' w' := by
  induction h with
  | unit _ ih => exact ih
  | enter _ henters _ ih => exact fun hc hu hid => .enter hc hu hid henters ih
  | function hn hkind hunit => exact fun hc hu _ => .function hc hu hn hkind hunit
  | inUnit hn _ ih => exact fun hc hu hid => .inUnit hc hu hn (ih hc hu hid)
  | compute hn _ _ _ hcompute ih => exact fun hc hu hid => .compute hc hu hn (ih hc hu hid) hcompute
  | @nil w parent inSequence => exact fun hc _ _ => ⟨.refl hc unit, fun y hy => .inr (.inr ⟨hy, by simp⟩)⟩
  | ended habort => exact fun hc _ _ => .ended hc habort
  | child hparent _ _ ih₁ ih₂ =>
    intro hc hu hid
    obtain ⟨m, hm, -⟩ := parent?_eq_some_iff.1 hparent
    have hfirst := ih₁ hc hu (lt_size_of_get? hm)
    have hevolved := hfirst.1.evolved
    exact .child hu hid hfirst (ih₂ hevolved.consistent (hevolved.unmarked hu) (Nat.lt_of_lt_of_le hid hevolved.size))
  | moved hparent _ ih => exact fun hc hu hid => .moved hparent (ih hc hu hid)

end Parts

/-! ## Whole walks -/

/-- A walk is done with every node of its unit, apart from what is below the functions inside the unit and from the
statements that it left out. -/
theorem ReplaceM.Report.reaches {unit x : NodeId} {w w' : Workspace} {events : List Event} (h : Report unit w w' events)
    (hunit : .done unit ∈ events) (hx : w'.tree.StrictlyBelow x unit) :
    .done x ∈ events ∨ (∃ function, w'.tree.kind function = .ok .functionBody ∧ w'.tree.StrictlyBelow function unit ∧
      w'.tree.StrictlyBelow x function) ∨ ∃ statement, .leftOut statement ∈ events ∧ w'.tree.Below x statement := by
  have hc := h.evolved.consistent
  have hchild {x p : NodeId} {n : Node} (hp : .done p ∈ events) (hn : w'.tree.get? p = some n)
      (hkind : n.kind = .functionBody → p = unit) (hx : w'.tree.IsParent x p) :
      .done x ∈ events ∨ ∃ statement, .leftOut statement ∈ events ∧ w'.tree.Below x statement :=
    (h.inner hp hn hkind hx).imp_right fun hleft => ⟨x, hleft, .refl⟩
  -- from the unit downwards: a node is reached from its parent
  induction hx using Relation.TransGen.head_induction_on with
  | single hx =>
    obtain ⟨n, hn, -⟩ := hc.parent_live hx
    exact (hchild hunit hn (fun _ => rfl) hx).imp_right .inr
  | @head x p hx hp ih =>
    rcases ih with hdone | ⟨function, hkind, hfunction, hbelow⟩ | ⟨statement, hleft, hbelow⟩
    · obtain ⟨n, hn, -⟩ := hc.parent_live hx
      by_cases hkind : n.kind = .functionBody
      · exact .inr (.inl ⟨p, kind_eq_ok_iff.2 ⟨n, hn, hkind⟩, hp, .single hx⟩)
      · exact (hchild hdone hn (fun hk => absurd hk hkind) hx).imp_right .inr
    · exact .inr (.inl ⟨function, hkind, hfunction, .head hx hbelow⟩)
    · exact .inr (.inr ⟨statement, hleft, .head hx hbelow⟩)

/-- **The trace of a walk is complete.** A successful walk of a unit, whatever the options, is told in a journal. An exit
is recorded for every node that the walk is done with and that may raise, with its place in the source. The walk is done
with every node of the unit, apart from what is below a function inside the unit and from statements that were left out
because control had ended. If control had ended, or if a node that raises was computed, the trace says that control ends. -/
theorem visit_records {s : Settings} {unit id' : NodeId} {fuel : Nat} {w w' : Workspace} (hc : w.tree.Consistent)
    (hplain : ∀ id n, w.tree.get? id = some n → n.override = none) (hrun : visit unit fuel unit s w = .ok id' w') :
    ∃ events, JournalM.visit unit fuel unit [] s w = .ok (id', events) w' ∧
      (∀ x n, w'.tree.StrictlyBelow x unit → .done x ∈ events → w'.tree.get? x = some n →
        n.capabilities.mayRaise = true → ∃ exit ∈ w'.trace.exits, exit.source = n.source) ∧
      (∀ x, w'.tree.StrictlyBelow x unit → .done x ∈ events ∨
        (∃ function, w'.tree.kind function = .ok .functionBody ∧ w'.tree.StrictlyBelow function unit ∧
          w'.tree.StrictlyBelow x function) ∨
        ∃ statement, .leftOut statement ∈ events ∧ w'.tree.Below x statement) ∧
      (∀ statement, .leftOut statement ∈ events → w'.trace.abortive = true) ∧
      ∀ step, .step step ∈ events → step.visitor? = none → step.before.kind step.node = .ok .raiseException →
        w'.trace.abortive = true := by
  have hu : w.tree.Unmarked := fun _ _ hn => .inl (hplain _ _ hn)
  obtain ⟨events, hwalks, hruns⟩ := visit_walks hrun
  obtain ⟨rfl, n, hn⟩ := hwalks.of_unit
  obtain ⟨hreport, -⟩ := hwalks.reports hc hu (lt_size_of_get? hn)
  have hne {x : NodeId} (hx : w'.tree.StrictlyBelow x id') : x ≠ id' := by
    rintro rfl
    exact hreport.evolved.consistent.acyclic x hx
  refine ⟨events, by simpa using hruns [], fun x n hx hdone hn hraises => ?_, fun x hx => ?_, fun x hleft => ?_,
    fun step hstep => ?_⟩
  · exact hreport.covered (List.mem_append_left _ hdone) (hne hx) hn hraises
  · have hreaches := hreport.reaches (by simp) hx
    simpa [hne hx] using hreaches
  · exact hreport.ended (List.mem_append_left _ hleft)
  · exact hreport.raised (List.mem_append_left _ hstep)

/-- The module `spam`, then an expression that raises, then `eggs`. -/
def Tree.raisingModule : Tree :=
  .applyAll {} [
    .newNode .module default (.scope "m") [.one none],
    .declareVariable ⟨0⟩ "spam" .module,
    .declareVariable ⟨0⟩ "eggs" .module,
    .newNode .variableRef ⟨"m.py", 1, 0⟩ (.var ⟨0⟩) [],
    .newNode .statementExpressionOnly ⟨"m.py", 1, 0⟩ .none [.filled ⟨1⟩],
    .newNode .raiseException ⟨"m.py", 2, 0⟩ (.raise ⟨.valueError, "no"⟩) [],
    .newNode .statementExpressionOnly ⟨"m.py", 2, 0⟩ .none [.filled ⟨3⟩],
    .newNode .variableRef ⟨"m.py", 3, 0⟩ (.var ⟨1⟩) [],
    .newNode .statementExpressionOnly ⟨"m.py", 3, 0⟩ .none [.filled ⟨5⟩],
    .newNode .statementsSequence ⟨"m.py", 1, 0⟩ .none [.many [⟨2⟩, ⟨4⟩, ⟨6⟩]],
    .setBody ⟨0⟩ ⟨7⟩,
    .setRoot ⟨0⟩]

set_option maxRecDepth 2000 in
/-- The walk is done with the name `spam` and has recorded an exit for it. Then control ends, and the name `eggs` is left
out. -/
theorem visit_records_raisingModule : ∃ events w',
    JournalM.visit ⟨0⟩ 8 ⟨0⟩ [] ⟨{}, .ofTable []⟩ Tree.raisingModule.atModule = .ok (⟨0⟩, events) w' ∧
      .done ⟨1⟩ ∈ events ∧ (∃ exit ∈ w'.trace.exits, exit.source = ⟨"m.py", 1, 0⟩) ∧
      .leftOut ⟨6⟩ ∈ events ∧ w'.trace.abortive = true ∧ ∀ exit ∈ w'.trace.exits, exit.source ≠ ⟨"m.py", 3, 0⟩ := by
  have hbuilt : Tree.raisingModule.Built := ⟨_, rfl⟩
  have hall : ∀ i < Tree.raisingModule.nodes.size, ((Tree.raisingModule.get? ⟨i⟩).all (·.override.isNone)) = true := by
    decide +kernel
  have hplain (id : NodeId) (n : Node) (hn : Tree.raisingModule.get? id = some n) : n.override = none := by
    have hid := hall id.index (lt_size_of_get? hn)
    rw [hn] at hid
    exact Option.isNone_iff_eq_none.1 hid
  have hvisit : succeedsWith (fun _ w' => w'.tree.parent? ⟨1⟩ = some ⟨2⟩ ∧ w'.tree.parent? ⟨2⟩ = some ⟨7⟩ ∧
      w'.tree.parent? ⟨7⟩ = some ⟨0⟩ ∧ (∀ exit ∈ w'.trace.exits, exit.source ≠ ⟨"m.py", 3, 0⟩) ∧
      (w'.tree.get? ⟨1⟩).any fun n => n.capabilities.mayRaise ∧ n.source = ⟨"m.py", 1, 0⟩)
      (visit ⟨0⟩ 8 ⟨0⟩ ⟨{}, .ofTable []⟩ Tree.raisingModule.atModule) = true := by decide +kernel
  have htold : succeedsWith (fun told _ => told.1 = ⟨0⟩ ∧ ⟨1⟩ ∈ told.2.filterMap Event.done? ∧
      ⟨6⟩ ∈ told.2.filterMap Event.leftOut?)
      (JournalM.visit ⟨0⟩ 8 ⟨0⟩ [] ⟨{}, .ofTable []⟩ Tree.raisingModule.atModule) = true := by decide +kernel
  obtain ⟨id', w', hrun, hvisit⟩ := succeedsWith_iff.1 hvisit
  obtain ⟨h₁, h₂, h₃, hnot, hnode⟩ := of_decide_eq_true hvisit
  obtain ⟨events, hjournal, hexits, -, hended, -⟩ := visit_records hbuilt.consistent hplain hrun
  rw [hjournal] at htold
  obtain ⟨rfl, hspam, heggs⟩ : id' = ⟨0⟩ ∧ .done ⟨1⟩ ∈ events ∧ .leftOut ⟨6⟩ ∈ events := by
    simpa [succeedsWith] using htold
  obtain ⟨n, hn, hraises⟩ := (Option.any_eq_true ..).1 hnode
  obtain ⟨hraises, hsource⟩ := of_decide_eq_true hraises
  have hexit := hexits ⟨1⟩ n (.head h₁ (.head h₂ (.single h₃))) hspam hn hraises
  rw [hsource] at hexit
  exact ⟨events, w', hjournal, hspam, hexit, heggs, hended ⟨6⟩ heggs, hnot⟩

end Specializer
