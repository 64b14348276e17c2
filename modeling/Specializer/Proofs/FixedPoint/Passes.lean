import Specializer.Proofs.FixedPoint.Visit
import Specializer.Proofs.ReadOnly

/-!
# Passes over a tree

Between two units the tree is in order, its root is where it was, and the changes so far are covered by a budget that was
fixed in the beginning (`Running`). Deciding about variables, walking a unit and therefore a whole pass keep it so
(`Running.runPass_ensures`).
-/

namespace Specializer

open Specializer.Tree

/-! ## Units -/

/-- The units of a tree are reachable: its root and the bodies of functions. -/
theorem Tree.Consistent.units_ok {t : Tree} (h : t.Consistent) {root : NodeId} (hroot : t.root = some root) :
    ∃ units, t.units = .ok units ∧
      ∀ unit ∈ units, t.Reachable unit ∧ (t.root = some unit ∨ t.kind unit = .ok .functionBody) := by
  obtain ⟨n, hn, -⟩ := h.root hroot
  obtain ⟨ids, hwalk, hmem⟩ := h.walk_ok hn
  have hreach {id : NodeId} (hid : id ∈ ids) : t.Reachable id := ⟨root, hroot, (hmem id).1 hid⟩
  have hbelow := filterM_eq_ok (l := ids) (f := fun id => do return id ≠ root && (← t.kind id) = .functionBody)
    (g := fun id => id ≠ root && t.kind id = .ok .functionBody) fun id hid => by
      obtain ⟨m, hm⟩ := h.live_of_reachable (hreach hid)
      simp [ReplaceM.kind_ok hm]
  refine ⟨root :: ids.filter fun id => id ≠ root && t.kind id = .ok .functionBody, ?_, fun unit hunit => ?_⟩
  · rw [Tree.units, hroot]
    dsimp only
    rw [hwalk, ok_bind, hbelow]
    rfl
  · rcases List.mem_cons.1 hunit with rfl | hunit
    · exact ⟨⟨unit, hroot, .refl⟩, Or.inl hroot⟩
    · obtain ⟨hid, hbody⟩ := List.mem_filter.1 hunit
      simp only [ne_eq, decide_not, Bool.and_eq_true, decide_eq_true_eq] at hbody
      exact ⟨hreach hid, Or.inr hbody.2⟩

/-! ## The state between units -/

/-- What stays true while passes run, for a kind of root and a number of changes that may be announced at most. -/
structure Running (located : ModuleName → Prop) (kind : NodeKind) (budget : Nat) (r : Run) : Prop where
  root : ∃ id n, r.tree.root = some id ∧ r.tree.get? id = some n ∧ n.kind = kind
  paid : ∃ credit, r.tree.Orderly located credit ∧ r.report.changes.size + r.tree.weight credit ≤ budget

namespace Running

variable {located : ModuleName → Prop} {s : Settings} {kind : NodeKind} {budget : Nat} {r : Run} {unit : NodeId}

theorem consistent (h : Running located kind budget r) : r.tree.Consistent := by
  obtain ⟨credit, horderly, -⟩ := h.paid
  exact horderly.built.consistent

theorem onTree_ok {α : Type} {action : TreeM α} {a : α} {t' : Tree} (h : action r.tree = .ok a t') :
    RunM.onTree action s r = .ok a { r with tree := t' } := by
  simp only [RunM.onTree, h]

theorem query_ok {α : Type} {question : Tree → Except TreeError α} {a : α} (h : question r.tree = .ok a) :
    RunM.onTree (TreeM.query question) s r = .ok a r :=
  onTree_ok (run_query_ok h)

/-- What a step of a pass does. -/
def Step (located : ModuleName → Prop) (kind : NodeKind) (budget : Nat) (r r' : Run) : Prop :=
  Running located kind budget r' ∧ r.report.changes.size ≤ r'.report.changes.size

/-- Deciding about variables changes no node. -/
theorem annotateReadOnly_ensures (h : Running located kind budget r) :
    Ensures located s (RunM.onTree TreeM.annotateReadOnly) r fun _ => Step located kind budget r := by
  obtain ⟨root, n, hroot, hn, hkind⟩ := h.root
  obtain ⟨credit, horderly, hpaid⟩ := h.paid
  obtain ⟨rebindings, count, -, hrun, hbuilt⟩ := horderly.built.annotateReadOnly_ok hroot
  refine .of_ok (onTree_ok hrun) ⟨⟨⟨root, n, hroot, hn, hkind⟩, credit, ?_, hpaid⟩, Nat.le_refl _⟩
  refine ⟨hbuilt, horderly.root, horderly.complete, horderly.pairs, fun {x m} hm hx hvar v hv => ?_, horderly.located,
    horderly.funded, horderly.call⟩
  obtain ⟨b, hb, habove, hscope⟩ := horderly.owner hm hx hvar v hv
  have hlt : v.index < r.tree.bindings.size := (Array.getElem?_eq_some_iff.1 hb).1
  refine ⟨{ b with readOnly := r.tree.isReadOnly root rebindings v b }, ?_, habove, hscope⟩
  simp only [decided, Array.getElem?_mapIdx, hb, Option.map_some, hlt, if_true]

theorem withTrace_ensures {α : Type} {name : String} {action : ReplaceM α} {Q : α → Run → Prop}
    (h : ∀ trace, Ensures located s action { tree := r.tree, trace, changes := r.report.changes } fun a w =>
      Q a { r with tree := w.tree, report := { r.report with changes := w.changes } }) :
    Ensures located s (RunM.withTrace unit name action) r Q := by
  have haction := h { unit, name, version := s.options.version }
  unfold Ensures at haction ⊢
  unfold RunM.withTrace
  dsimp only
  generalize action s ⟨r.tree, { unit, name, version := s.options.version }, r.report.changes⟩ = outcome at haction
  cases outcome with
  | ok a w => exact haction
  | error e w => exact haction

theorem runUnit_ensures (h : Running located kind budget r) (hknows : Plan.Knows located s) (unit : NodeId) :
    Ensures located s (RunM.runUnit unit) r fun _ => Step located kind budget r := by
  refine .bind_ok (show (get : RunM Run) s r = .ok r r from rfl) ?_
  split
  · next hreach =>
    have hreach : r.tree.Reachable unit := h.consistent.isReachable_iff.1 hreach
    obtain ⟨n, hn⟩ := h.consistent.live_of_reachable hreach
    have hpayload : r.tree.payload unit = .ok n.payload := by
      rw [Tree.payload, node_of_get? hn]
      rfl
    refine .bind_ok (query_ok hpayload) (withTrace_ensures fun trace => ?_)
    obtain ⟨root, nr, hroot, hnr, hkind⟩ := h.root
    obtain ⟨credit, horderly, hpaid⟩ := h.paid
    have hwalk := Plan.visitUnit_ensures (s := s) (w := { tree := r.tree, trace, changes := r.report.changes }) horderly
      hreach hknows
    refine hwalk.mono ?_
    rintro - w' ⟨credit', horderly', hgrows, hbudget, hroot', hnode⟩
    obtain ⟨slots, hslots⟩ := hnode root nr hroot hnr
    exact ⟨⟨⟨root, _, hroot'.trans hroot, hslots, hkind⟩, credit', horderly', Nat.le_trans hbudget hpaid⟩, hgrows⟩
  · exact .ret ⟨h, Nat.le_refl _⟩

theorem runUnits_ensures (hknows : Plan.Knows located s) : ∀ {units : List NodeId} {r : Run},
    Running located kind budget r → Ensures located s (RunM.runUnits units) r fun _ => Step located kind budget r
  | [], _, h => .ret ⟨h, Nat.le_refl _⟩
  | unit :: units, r, h => by
    refine (h.runUnit_ensures hknows unit).bind ?_
    rintro - r₁ ⟨h₁, hgrows₁⟩
    refine (runUnits_ensures hknows h₁).mono ?_
    rintro - r₂ ⟨h₂, hgrows₂⟩
    exact ⟨h₂, Nat.le_trans hgrows₁ hgrows₂⟩

/-- **A pass keeps the tree in order.** -/
theorem runPass_ensures (h : Running located kind budget r) (hknows : Plan.Knows located s) :
    Ensures located s RunM.runPass r fun _ => Step located kind budget r := by
  refine h.annotateReadOnly_ensures.bind ?_
  rintro - r₁ ⟨h₁, hgrows₁⟩
  obtain ⟨root, -, hroot, -⟩ := h₁.root
  obtain ⟨units, hunits, -⟩ := h₁.consistent.units_ok hroot
  refine .bind_ok (query_ok hunits) ((runUnits_ensures hknows h₁).mono ?_)
  rintro - r₂ ⟨h₂, hgrows₂⟩
  exact ⟨h₂, Nat.le_trans hgrows₁ hgrows₂⟩

end Running

end Specializer
