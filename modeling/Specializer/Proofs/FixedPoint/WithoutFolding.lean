import Specializer.Proofs.FixedPoint.DirectEvaluation

/-!
# Passes that do not fold

A builtin operation can be folded on the way down, by the visitor that the options enable, and on the way up, where
every node is computed whatever the options say. All that a walk does to nodes is to take such turns at them, so a walk
can be run with other turns in the place of its own: `RunM.runPassWith` is a pass with arbitrary turns.

* Turns that do the same give the same pass (`SameTurns.runPass`).
* `Turn.takeSparing` takes a turn but leaves operations in their place. Without folding it does what the turn itself
  does (`sameTurns_takeSparing`): visitors for calls and names leave operations alone, and so do computations.

Therefore a pass without folding is a pass that spares operations (`runPass_spares_operations`). The one exception are
ranges: computing them is folding them (`mixedOperations_folded`).
-/

namespace Specializer

open Specializer.Tree ReplaceM

/-! ## Turns -/

/-- What a walk does to a node. -/
inductive Turn where
  /-- A visitor looks at the node on the way down. -/
  | look (visitor : Visitor)
  /-- The node is computed on the way up. -/
  | compute
  deriving DecidableEq

namespace Turn

/-- Takes a turn at a node. Returns the node now in its place. -/
def take : Turn → NodeId → ReplaceM NodeId
  | .look visitor, id => visitor.enter id
  | .compute, id => do applyComputed id (← computeNode id)

/-- Whether a node is to be kept: it is a builtin operation, and the turn does not compute a range. -/
def keeps (turn : Turn) (t : Tree) (id : NodeId) : Bool :=
  (t.get? id).any fun n => n.kind.isBuiltinOperation && !(turn = .compute && n.kind = .builtinRange)

/-- Takes a turn, but leaves a node that is to be kept where it is, and the rest of the tree as well: there only what
the turn tells the trace counts. -/
def takeSparing (turn : Turn) (id : NodeId) : ReplaceM NodeId := fun s w =>
  if turn.keeps w.tree id then
    match turn.take id s w with
    | .ok _ told | .error _ told => .ok id { w with trace := told.trace }
  else turn.take id s w

end Turn

/-! ## Passes with given turns -/

namespace ReplaceM

variable (take : Turn → NodeId → ReplaceM NodeId)

/-- Lets the visitors look at a node, as `enterNode` does. -/
def enterNodeWith (id : NodeId) : ReplaceM NodeId := do
  (← read).options.visitors.foldlM (fun current visitor => take (.look visitor) current) id

/-- Visits a node that is in its place and, with `visit`, what is below it, as `visitEntered` does. -/
def visitEnteredWith (visit : NodeId → ReplaceM NodeId) (unit current : NodeId) : ReplaceM NodeId := do
  let n ← ask (·.node current)
  if n.kind = .functionBody ∧ current ≠ unit then return current
  visitChildren (fun child => discard (visit child)) current (n.kind = .statementsSequence) n.children
  if current = unit then return current
  take .compute current

/-- Visits a node of a unit and everything below it, as `visit` does. -/
def visitWith (unit : NodeId) : Nat → NodeId → ReplaceM NodeId
  | 0, _ => throw (.internal "the tree is nested too deeply")
  | fuel + 1, id =>
    if id = unit then visitEnteredWith take (visitWith unit fuel) unit id
    else enterNodeWith take id >>= visitEnteredWith take (visitWith unit fuel) unit

/-- Visits a unit, as `visitUnit` does. -/
def visitUnitWith (unit : NodeId) : ReplaceM Unit := do
  let _ ← visitWith take unit (depthBound (← tree)) unit

end ReplaceM

namespace RunM

variable (take : Turn → NodeId → ReplaceM NodeId)

/-- Optimizes a unit, as `runUnit` does. -/
def runUnitWith (unit : NodeId) : RunM Unit := do
  if (← get).tree.isReachable unit then
    let name := match ← onTree (TreeM.query (·.payload unit)) with
      | .scope name => name
      | _ => ""
    withTrace unit name (ReplaceM.visitUnitWith take unit)

/-- Runs the units one after the other. -/
def runUnitsWith : List NodeId → RunM Unit
  | [] => return ()
  | unit :: rest => do
    runUnitWith take unit
    runUnitsWith rest

/-- One pass over every unit. -/
def runPassWith : RunM Unit := do
  let _ ← onTree TreeM.annotateReadOnly
  runUnitsWith take (← onTree (TreeM.query (·.units)))

end RunM

/-! ## Turns that do the same -/

section Congr

variable {s : Settings} {take : Turn → NodeId → ReplaceM NodeId} {unit : NodeId}

/-- With these settings, the given turns do what the turns of a walk do. -/
structure SameTurns (s : Settings) (take : Turn → NodeId → ReplaceM NodeId) : Prop where
  look : ∀ visitor ∈ s.options.visitors, ∀ id, take (.look visitor) id s = visitor.enter id s
  compute : ∀ id, take .compute id s = (computeNode id >>= applyComputed id) s

theorem visitChildren_congr {visit visit' : NodeId → ReplaceM Unit} (h : ∀ child, visit child s = visit' child s)
    (parent : NodeId) (inSequence : Bool) (children : List NodeId) :
    visitChildren visit parent inSequence children s = visitChildren visit' parent inSequence children s := by
  induction children with
  | nil => rfl
  | cons child rest ih =>
    refine reads_bind_congr rfl fun w => ?_
    split
    · rfl
    · refine reads_bind_congr rfl fun t => ?_
      split
      · exact reads_bind_congr (h child) fun _ => ih
      · exact ih

theorem withTrace_congr {α : Type} {name : String} {action action' : ReplaceM α} (h : action s = action' s) :
    RunM.withTrace unit name action s = RunM.withTrace unit name action' s := by
  funext r
  simp only [RunM.withTrace, h]

namespace SameTurns

theorem enterNode (h : SameTurns s take) (id : NodeId) : enterNodeWith take id s = ReplaceM.enterNode id s := by
  have hfold : ∀ {visitors : List Visitor}, visitors ⊆ s.options.visitors → ∀ id,
      visitors.foldlM (fun current visitor => take (.look visitor) current) id s =
        visitors.foldlM (fun current visitor => visitor.enter current) id s := by
    intro visitors hsub
    induction visitors with
    | nil => exact fun _ => rfl
    | cons visitor visitors ih =>
      intro id
      obtain ⟨hvisitor, hvisitors⟩ := List.cons_subset.1 hsub
      rw [List.foldlM_cons, List.foldlM_cons]
      exact reads_bind_congr (h.look visitor hvisitor id) (ih hvisitors)
  exact hfold (List.Subset.refl _) id

theorem visitEntered (h : SameTurns s take) {fuel : Nat} {visit : NodeId → ReplaceM NodeId}
    (hvisit : ∀ child, visit child s = ReplaceM.visit unit fuel child s) (current : NodeId) :
    visitEnteredWith take visit unit current s = ReplaceM.visitEntered unit fuel current s := by
  refine reads_bind_congr rfl fun n => ?_
  split
  · rfl
  · refine reads_bind_congr (visitChildren_congr (fun child => ?_) ..) fun _ => ?_
    · exact congrArg (EStateM.map fun _ => ()) (hvisit child)
    · split
      · rfl
      · exact h.compute current

theorem visit (h : SameTurns s take) (fuel : Nat) (id : NodeId) :
    visitWith take unit fuel id s = ReplaceM.visit unit fuel id s := by
  induction fuel generalizing id with
  | zero => rfl
  | succ fuel ih =>
    rw [visitWith, visit_succ]
    split
    · exact h.visitEntered ih id
    · exact reads_bind_congr (h.enterNode id) (h.visitEntered ih)

theorem visitUnit (h : SameTurns s take) (unit : NodeId) : visitUnitWith take unit s = ReplaceM.visitUnit unit s :=
  reads_bind_congr rfl fun t => reads_bind_congr (h.visit (depthBound t) unit) fun _ => rfl

theorem runUnit (h : SameTurns s take) (unit : NodeId) : RunM.runUnitWith take unit s = RunM.runUnit unit s := by
  refine reads_bind_congr rfl fun r => ?_
  split
  · exact reads_bind_congr rfl fun payload => withTrace_congr (h.visitUnit unit)
  · rfl

theorem runUnits (h : SameTurns s take) (units : List NodeId) :
    RunM.runUnitsWith take units s = RunM.runUnits units s := by
  induction units with
  | nil => rfl
  | cons unit units ih => exact reads_bind_congr (h.runUnit unit) fun _ => ih

/-- **Turns that do the same give the same pass.** -/
theorem runPass (h : SameTurns s take) : RunM.runPassWith take s = RunM.runPass s :=
  reads_bind_congr rfl fun _ => reads_bind_congr rfl h.runUnits

end SameTurns

end Congr

/-! ## Operations are spared -/

section Spared

variable {s : Settings} {w : Workspace} {id : NodeId} {turn : Turn}

/-- A turn that rests at a node that is to be kept spares it already. -/
theorem Turn.takeSparing_of_rests
    (h : turn.keeps w.tree id = true → ∃ aborts, Rests s w.tree (turn.take id) id aborts) :
    turn.takeSparing id s w = turn.take id s w := by
  unfold Turn.takeSparing
  split
  · next hkeeps =>
    obtain ⟨aborts, hrests⟩ := h hkeeps
    obtain ⟨trace, -, hrun⟩ := hrests w.trace w.changes
    have htake : turn.take id s w = .ok id { w with trace } := hrun
    rw [htake]
  · rfl

theorem Turn.keeps_iff {t : Tree} : turn.keeps t id = true ↔ ∃ n, t.get? id = some n ∧
    n.kind.isBuiltinOperation = true ∧ (turn = .compute → n.kind ≠ .builtinRange) := by
  unfold Turn.keeps
  cases t.get? id with
  | none => simp
  | some n => simp [imp_iff_not_or]

/-- An operation is no call, no name and no statement, and computing it replaces it only if it is a range. -/
theorem kind_of_operation {kind : NodeKind} (h : kind.isBuiltinOperation = true) :
    kind ∉ [.functionCall, .variableRef, .statementExpressionOnly] ∧
      (kind ≠ .builtinRange → kind ∉ [.sideEffects, .builtinRange, .importModule, .importName]) := by
  have hall : ∀ kind ∈ NodeKind.all, kind.isBuiltinOperation = true →
      kind ∉ [.functionCall, .variableRef, .statementExpressionOnly] ∧
        (kind ≠ .builtinRange → kind ∉ [.sideEffects, .builtinRange, .importModule, .importName]) := by decide
  exact hall kind kind.mem_all h

/-- Without folding, every turn of a walk rests at the nodes that are to be kept. -/
theorem sameTurns_takeSparing (hoff : s.options.constantFolding = false) : SameTurns s Turn.takeSparing where
  look visitor hvisitor id := by
    have hother : visitor ≠ .constantFolding := by
      rintro rfl
      simp [Options.visitors, hoff] at hvisitor
    refine funext fun w => Turn.takeSparing_of_rests fun hkeeps => ?_
    obtain ⟨n, hn, hoperation, -⟩ := Turn.keeps_iff.1 hkeeps
    exact ⟨false, (anonymous_of_kind hn (kind_of_operation hoperation).1).enter_rests visitor hother⟩
  compute id := by
    refine funext fun w => Turn.takeSparing_of_rests fun hkeeps => ?_
    obtain ⟨n, hn, hoperation, hrange⟩ := Turn.keeps_iff.1 hkeeps
    exact compute_rests hn ((kind_of_operation hoperation).2 (hrange rfl))

theorem Turn.takeSparing_of_keeps (h : turn.keeps w.tree id = true) :
    ∃ trace, turn.takeSparing id s w = .ok id { w with trace } := by
  rw [Turn.takeSparing, if_pos h]
  split
  · exact ⟨_, rfl⟩
  · exact ⟨_, rfl⟩

end Spared

/-- **Without folding, builtin operations are kept.** On every tree, a pass does what a pass does whose turns leave
every builtin operation in its place and the tree as it is, so none is replaced, by a constant or by anything else. The
only turns that are free at an operation are those that compute a range. -/
theorem runPass_spares_operations {s : Settings} (hoff : s.options.constantFolding = false) (r : Run) :
    RunM.runPass s r = RunM.runPassWith Turn.takeSparing s r ∧
      ∀ turn id w n, w.tree.get? id = some n → n.kind.isBuiltinOperation = true →
        (turn = .compute → n.kind ≠ .builtinRange) →
        ∃ trace, Turn.takeSparing turn id s w = .ok id { w with trace } := by
  constructor
  · rw [(sameTurns_takeSparing hoff).runPass]
  · intro turn id w n hn hoperation hrange
    exact Turn.takeSparing_of_keeps (Turn.keeps_iff.2 ⟨n, hn, hoperation, hrange⟩)

/-- A module with the statements `len("abc")` and `range(3)`, both of them operations already. -/
def Tree.mixedOperations : Tree :=
  .applyAll {} [
    .makeScope .module "m" default,
    .makeConstant (.str "abc") default,
    .makeBuiltin .builtinLen [.filled ⟨1⟩] default,
    .makeExpressionStatement ⟨2⟩ default,
    .makeConstant (.int 3) default,
    .makeBuiltin .builtinRange [.filled ⟨4⟩, .one none, .one none] default,
    .makeExpressionStatement ⟨5⟩ default,
    .makeStatements [⟨3⟩, ⟨6⟩] default,
    .setBody ⟨0⟩ ⟨7⟩,
    .setRoot ⟨0⟩]

/-- Settings that do not ask for folding. -/
def Settings.unfolded : Settings := ⟨{ constantFolding := false }, .ofTable []⟩

/-- Without folding, a pass keeps the first operation and puts a constant in the place of the second. -/
theorem runPass_mixedOperations : ∃ r', RunM.runPass .unfolded { tree := mixedOperations } = .ok () r' ∧
    (r'.tree.child ⟨3⟩ "expression" = .ok (some ⟨2⟩) ∧ r'.tree.kind ⟨2⟩ = .ok .builtinLen) ∧
    r'.tree.child ⟨6⟩ "expression" = .ok (some ⟨8⟩) ∧ r'.tree.kind ⟨8⟩ = .ok .constantRef := by
  have hpass : (match RunM.runPass .unfolded { tree := mixedOperations } with
      | .ok _ r' => decide ((r'.tree.child ⟨3⟩ "expression" = .ok (some ⟨2⟩) ∧ r'.tree.kind ⟨2⟩ = .ok .builtinLen) ∧
        r'.tree.child ⟨6⟩ "expression" = .ok (some ⟨8⟩) ∧ r'.tree.kind ⟨8⟩ = .ok .constantRef)
      | .error _ _ => false) = true := by decide +kernel
  generalize RunM.runPass .unfolded { tree := mixedOperations } = outcome at hpass
  cases outcome with
  | error e r' => cases hpass
  | ok _ r' => exact ⟨r', rfl, of_decide_eq_true hpass⟩

theorem runPass_spares_operations_mixedOperations : Settings.unfolded.options.constantFolding = false ∧
    ∃ r', RunM.runPassWith Turn.takeSparing .unfolded { tree := mixedOperations } = .ok () r' ∧
      r'.tree.child ⟨3⟩ "expression" = .ok (some ⟨2⟩) ∧ r'.tree.kind ⟨2⟩ = .ok .builtinLen := by
  obtain ⟨r', hrun, hlen, -⟩ := runPass_mixedOperations
  rw [(runPass_spares_operations rfl _).1] at hrun
  exact ⟨rfl, r', hrun, hlen⟩

/-- Computing a range folds it although folding is off. -/
theorem mixedOperations_folded : mixedOperations.Built ∧ Settings.unfolded.options.constantFolding = false ∧
    mixedOperations.child ⟨6⟩ "expression" = .ok (some ⟨5⟩) ∧ mixedOperations.kind ⟨5⟩ = .ok .builtinRange ∧
    NodeKind.builtinRange.isBuiltinOperation = true ∧
    ∃ r' id, RunM.runPass .unfolded { tree := mixedOperations } = .ok () r' ∧
      r'.tree.child ⟨6⟩ "expression" = .ok (some id) ∧ r'.tree.kind id = .ok .constantRef := by
  obtain ⟨r', hrun, -, hrange⟩ := runPass_mixedOperations
  exact ⟨⟨_, rfl⟩, rfl, by decide +kernel, by decide +kernel, rfl, r', ⟨8⟩, hrun, hrange⟩

end Specializer
