import Specializer.Proofs.FixedPoint.Repetition
import Specializer.Proofs.Replacement.Rewriting

/-!
# What visitors look through

A visitor replaces a call of a builtin, or a name, through the variable that is read there. Which variables may be looked
through is decided once, when a pass begins, and many replacements follow before the next decision.

`RunM.lookPass` is a pass that also tells every look of a visitor, in order, and does what `RunM.runPass` does
(`runPass_looks`). Replacements write nothing about variables but their counts, so every look sees them as they were
decided. Therefore a look that replaces goes through a variable that nothing reachable could rebind when the pass began
(`runPass_gated`).
-/

namespace Specializer

open Specializer.Tree ReplaceM

/-! ## Looks -/

namespace Tree

/-- The variable a name reads. -/
def readThrough? (t : Tree) (id : NodeId) : Option VariableId := do
  let n ← t.get? id
  guard (n.kind = .variableRef)
  n.referent?

/-- The variable a call goes through. -/
def calledThrough? (t : Tree) (id : NodeId) : Option VariableId := do
  let n ← t.get? id
  guard (n.kind = .functionCall)
  let called ← (t.child id "called").toOption.join
  t.readThrough? called

/-- The variable a call that makes up a statement goes through. -/
def statedThrough? (t : Tree) (id : NodeId) : Option VariableId := do
  let n ← t.get? id
  guard (n.kind = .statementExpressionOnly)
  let call ← (t.child id "expression").toOption.join
  t.calledThrough? call

end Tree

/-- A look of a visitor at a node. -/
structure Look where
  visitor : Visitor
  node : NodeId
  /-- The tree the visitor saw. -/
  before : Tree
  /-- The node in the place of the one that was looked at, afterwards. -/
  after : NodeId

/-- The variable the node is read or called through. -/
def Look.through? (look : Look) : Option VariableId :=
  match look.visitor with
  | .criticalBuiltins => (look.before.calledThrough? look.node).or (look.before.statedThrough? look.node)
  | .optionalBuiltins => look.before.calledThrough? look.node
  | .exceptionNames => look.before.readThrough? look.node
  | .constantFolding => none

/-- Replacements that tell the looks of the visitors. -/
abbrev LookM := StateT (List Look) ReplaceM

namespace LookM

/-- Lets a visitor look at a node. -/
def enter (visitor : Visitor) (node : NodeId) : LookM NodeId := do
  let before ← ReplaceM.tree
  let after ← visitor.enter node
  modify (· ++ [{ visitor, node, before, after }])
  return after

/-- Lets the visitors look at a node one after the other. -/
def enterNode (id : NodeId) : LookM NodeId := do
  let settings ← (read : ReplaceM Settings)
  settings.options.visitors.foldlM (fun current visitor => enter visitor current) id

/-- Visits children with `visit`, as `ReplaceM.visitChildren` does. -/
def visitChildren (visit : NodeId → LookM Unit) (parent : NodeId) (inSequence : Bool) : List NodeId → LookM Unit
  | [] => return ()
  | child :: rest => do
    let w ← (get : ReplaceM Workspace)
    if inSequence && w.trace.abortive then return ()
    let t ← ReplaceM.tree
    if t.parent? child = some parent then visit child
    visitChildren visit parent inSequence rest

/-- Visits a node of a unit and everything below it, as `ReplaceM.visit` does. -/
def visit (unit : NodeId) : Nat → NodeId → LookM NodeId
  | 0, _ => (throw (.internal "the tree is nested too deeply") : ReplaceM NodeId)
  | fuel + 1, id => do
    let current ← if id = unit then pure id else enterNode id
    let n ← ask (·.node current)
    if n.kind = .functionBody ∧ current ≠ unit then return current
    visitChildren (fun child => do let _ ← visit unit fuel child) current (n.kind = .statementsSequence) n.children
    if current = unit then return current
    applyComputed current (← computeNode current)

/-- Visits a unit. -/
def visitUnit (unit : NodeId) : LookM Unit := do
  let t ← ReplaceM.tree
  let _ ← visit unit (depthBound t) unit

end LookM

namespace RunM

/-- Optimizes a unit, as `RunM.runUnit` does, and adds the looks. -/
def lookUnit (unit : NodeId) (looks : List Look) : RunM (List Look) := do
  if (← get).tree.isReachable unit then
    let name := match ← onTree (TreeM.query (·.payload unit)) with
      | .scope name => name
      | _ => ""
    withTrace unit name (do return (← LookM.visitUnit unit looks).2)
  else return looks

/-- Runs the units one after the other, and adds the looks. -/
def lookUnits : List NodeId → List Look → RunM (List Look)
  | [], looks => return looks
  | unit :: rest, looks => do lookUnits rest (← lookUnit unit looks)

/-- One pass over every unit that tells all looks. -/
def lookPass : RunM (List Look) := do
  let _ ← onTree TreeM.annotateReadOnly
  lookUnits (← onTree (TreeM.query (·.units))) []

end RunM

/-! ## Telling looks changes nothing -/

/-- A look took place, and the variables were those of a tree then, but for their counts. -/
def Look.Saw (look : Look) (s : Settings) (t : Tree) : Prop :=
  ∃ w w', look.before = w.tree ∧ w.tree.uncounted = t.uncounted ∧
    look.visitor.enter look.node s w = .ok look.after w'

/-- A computation that tells looks does what another one does, and all of them see the variables as they were. -/
structure Tells {α : Type} (y : LookM α) (x : ReplaceM α) : Prop where
  tame : Tame x
  looks : ∀ ⦃s w a w'⦄, x s w = .ok a w' → ∀ looks, ∃ more, y looks s w = .ok (a, looks ++ more) w' ∧
    ∀ look ∈ more, look.Saw s w.tree

theorem Look.Saw.of_uncounted {look : Look} {s : Settings} {t t' : Tree} (h : look.Saw s t')
    (ht : t'.uncounted = t.uncounted) : look.Saw s t := by
  obtain ⟨w, w', hbefore, hw, hrun⟩ := h
  exact ⟨w, w', hbefore, hw.trans ht, hrun⟩

namespace Tells

variable {α β : Type} {x : ReplaceM α} {y : LookM α} {f : α → ReplaceM β} {g : α → LookM β}

theorem lift (hx : Tame x) : Tells (liftM x : LookM α) x := by
  refine ⟨hx, fun s w a w' h looks => ⟨[], ?_, by simp⟩⟩
  rw [List.append_nil]
  exact reads_bind_of_ok h

theorem ret (a : α) : Tells (pure a : LookM α) (pure a) := lift (.ret a)

theorem bind (hx : Tells y x) (hf : ∀ a, Tells (g a) (f a)) : Tells (y >>= g) (x >>= f) := by
  refine ⟨.bind hx.tame fun a => (hf a).tame, fun s w b w' h looks => ?_⟩
  obtain ⟨a, w₁, h₁, h₂⟩ := reads_bind_eq_ok_iff.1 h
  obtain ⟨more₁, hrun₁, hsaw₁⟩ := hx.looks h₁ looks
  obtain ⟨more₂, hrun₂, hsaw₂⟩ := (hf a).looks h₂ (looks ++ more₁)
  refine ⟨more₁ ++ more₂, ?_, fun look hlook => ?_⟩
  · rw [← List.append_assoc]
    exact (reads_bind_of_ok hrun₁).trans hrun₂
  · rcases List.mem_append.1 hlook with hlook | hlook
    · exact hsaw₁ look hlook
    · exact (hsaw₂ look hlook).of_uncounted (hx.tame h₁).uncounted

theorem discarded (hx : Tells y x) : Tells (y >>= fun _ => pure ()) (discard x) := by
  refine ⟨hx.tame.discarded, fun s w a w' h looks => ?_⟩
  obtain ⟨b, hrun⟩ := discard_eq_ok h
  obtain ⟨more, hrun', hsaw⟩ := hx.looks hrun looks
  exact ⟨more, reads_bind_of_ok hrun', hsaw⟩

theorem foldlM {x : β → α → ReplaceM β} {y : β → α → LookM β} (h : ∀ b a, Tells (y b a) (x b a)) :
    ∀ (l : List α) (b : β), Tells (l.foldlM y b) (l.foldlM x b)
  | [], b => .ret b
  | a :: l, b => by
    rw [List.foldlM_cons, List.foldlM_cons]
    exact .bind (h b a) fun b' => foldlM h l b'

theorem enter (visitor : Visitor) (id : NodeId) : Tells (LookM.enter visitor id) (visitor.enter id) := by
  refine ⟨tame_enter visitor id, fun s w id' w' h looks => ?_⟩
  refine ⟨[⟨visitor, id, w.tree, id'⟩], ?_, fun look hlook => ?_⟩
  · have hlift : (liftM (visitor.enter id) : LookM NodeId) looks s w = .ok (id', looks) w' := reads_bind_of_ok h
    change ((liftM (visitor.enter id) : LookM NodeId) looks >>= fun p =>
      (pure (p.1, p.2 ++ [⟨visitor, id, w.tree, p.1⟩]) : ReplaceM (NodeId × List Look))) s w = _
    exact reads_bind_of_ok hlift
  · obtain rfl := List.mem_singleton.1 hlook
    exact ⟨w, w', rfl, rfl, h⟩

theorem enterNode (id : NodeId) : Tells (LookM.enterNode id) (ReplaceM.enterNode id) :=
  .bind (.lift .read) fun _ => .foldlM (fun current visitor => .enter visitor current) _ id

theorem visitChildren {visit : NodeId → ReplaceM Unit} {look : NodeId → LookM Unit}
    (h : ∀ child, Tells (look child) (visit child)) (parent : NodeId) (inSequence : Bool) : ∀ children : List NodeId,
    Tells (LookM.visitChildren look parent inSequence children)
      (ReplaceM.visitChildren visit parent inSequence children)
  | [] => .ret ()
  | child :: rest => by
    refine .bind (.lift .get) fun w => ?_
    split
    · exact .ret ()
    refine .bind (.lift .tree) fun t => ?_
    split
    · exact .bind (h child) fun _ => visitChildren h parent inSequence rest
    · exact visitChildren h parent inSequence rest

theorem visit (unit : NodeId) (fuel : Nat) (id : NodeId) : Tells (LookM.visit unit fuel id) (ReplaceM.visit unit fuel id) := by
  induction fuel generalizing id with
  | zero => exact .lift (.fail _)
  | succ fuel ih =>
    have hentered (current : NodeId) : Tells (do
        let n ← ask (·.node current)
        if n.kind = .functionBody ∧ current ≠ unit then return current
        LookM.visitChildren (fun child => do let _ ← LookM.visit unit fuel child) current (n.kind = .statementsSequence)
          n.children
        if current = unit then return current
        applyComputed current (← computeNode current)) (visitEntered unit fuel current) := by
      refine .bind (.lift (.ask _)) fun n => ?_
      split
      · exact .ret _
      refine .bind (.visitChildren (fun child => (ih child).discarded) ..) fun _ => ?_
      split
      · exact .ret _
      · exact .bind (.lift (tame_computeNode current)) fun c => .lift (tame_applyComputed c)
    rw [visit_succ, LookM.visit]
    split
    · exact hentered id
    · exact .bind (.enterNode id) hentered

theorem visitUnit (unit : NodeId) : Tells (LookM.visitUnit unit) (ReplaceM.visitUnit unit) :=
  .bind (.lift .tree) fun t => .bind (.visit unit (depthBound t) unit) fun _ => .ret ()

end Tells

section Passes

variable {s : Settings} {r r' : Run} {unit : NodeId}

theorem withTrace_ok {α : Type} {name : String} {action : ReplaceM α} {a : α} {w : Workspace}
    (h : action s ⟨r.tree, { unit, name, version := s.options.version }, r.report.changes⟩ = .ok a w) :
    RunM.withTrace unit name action s r = .ok a (r.walked w) := by
  simp only [RunM.withTrace, h]
  rfl

theorem runUnit_looks (h : RunM.runUnit unit s r = .ok () r') (looks : List Look) :
    ∃ more, RunM.lookUnit unit looks s r = .ok (looks ++ more) r' ∧ (∀ look ∈ more, look.Saw s r.tree) ∧
      r'.tree.uncounted = r.tree.uncounted := by
  have hget : (get : RunM Run) s r = .ok r r := rfl
  rw [RunM.runUnit, reads_bind_of_ok hget] at h
  rw [RunM.lookUnit, reads_bind_of_ok hget]
  cases hreach : r.tree.isReachable unit with
  | false =>
    rw [hreach] at h
    cases h
    exact ⟨[], by rw [List.append_nil]; rfl, by simp, rfl⟩
  | true =>
    rw [if_pos hreach] at h
    rw [if_pos rfl]
    obtain ⟨payload, r₁, hpayload, hwalk⟩ := reads_bind_eq_ok_iff.1 h
    obtain ⟨-, rfl⟩ := RunM.query_eq_ok hpayload
    rw [reads_bind_of_ok hpayload]
    obtain ⟨w, hvisit, rfl⟩ := withTrace_eq_ok hwalk
    obtain ⟨more, hlook, hsaw⟩ := (Tells.visitUnit unit).looks hvisit looks
    exact ⟨more, withTrace_ok (reads_bind_of_ok hlook), hsaw, (tame_visitUnit unit hvisit).uncounted⟩

theorem runUnits_looks : ∀ {units : List NodeId} {r : Run} (looks : List Look), RunM.runUnits units s r = .ok () r' →
    ∃ more, RunM.lookUnits units looks s r = .ok (looks ++ more) r' ∧ ∀ look ∈ more, look.Saw s r.tree
  | [], r, looks, h => by
    cases h
    exact ⟨[], by rw [List.append_nil]; rfl, by simp⟩
  | unit :: units, r, looks, h => by
    obtain ⟨_, r₁, hunit, hunits⟩ := reads_bind_eq_ok_iff.1 h
    obtain ⟨more₁, hlook₁, hsaw₁, huncounted⟩ := runUnit_looks hunit looks
    obtain ⟨more₂, hlook₂, hsaw₂⟩ := runUnits_looks (looks ++ more₁) hunits
    refine ⟨more₁ ++ more₂, ?_, fun look hlook => ?_⟩
    · rw [← List.append_assoc]
      exact (reads_bind_of_ok hlook₁).trans hlook₂
    · rcases List.mem_append.1 hlook with hlook | hlook
      · exact hsaw₁ look hlook
      · exact (hsaw₂ look hlook).of_uncounted huncounted

/-- **Telling looks changes nothing about a pass**, and all of them see the variables as they were decided. -/
theorem runPass_looks (h : RunM.runPass s r = .ok () r') : ∃ count decided units looks,
    TreeM.annotateReadOnly r.tree = .ok count decided ∧ decided.units = .ok units ∧
      RunM.lookPass s r = .ok looks r' ∧ ∀ look ∈ looks, look.Saw s decided := by
  obtain ⟨count, r₁, hdecide, h⟩ := reads_bind_eq_ok_iff.1 h
  obtain ⟨units, r₂, hask, h⟩ := reads_bind_eq_ok_iff.1 h
  obtain ⟨hunits, rfl⟩ := RunM.query_eq_ok hask
  obtain ⟨looks, hlooks, hsaw⟩ := runUnits_looks [] h
  obtain ⟨decided, hdecided, rfl⟩ := RunM.onTree_eq_ok hdecide
  exact ⟨count, decided, units, looks, hdecided, hunits,
    (reads_bind_of_ok hdecide).trans ((reads_bind_of_ok hask).trans hlooks), hsaw⟩

end Passes

/-! ## Looking through variables -/

section Through

variable {s : Settings} {w w' : Workspace} {t : Tree} {id id' : NodeId} {v : VariableId} {b : Variable}

theorem readThrough?_of_readOnly (h : t.readOnlyVariable? id = some (v, b)) :
    t.readThrough? id = some v ∧ t.bindings[v.index]? = some b ∧ b.readOnly = true := by
  unfold readOnlyVariable? at h
  obtain ⟨n, hn, h⟩ := Option.bind_eq_some_iff.1 h
  obtain ⟨⟨⟩, hkind, h⟩ := Option.bind_eq_some_iff.1 h
  obtain ⟨v', hv, h⟩ := Option.bind_eq_some_iff.1 h
  obtain ⟨b', hb, h⟩ := Option.bind_eq_some_iff.1 h
  obtain ⟨⟨⟩, hguard, h⟩ := Option.bind_eq_some_iff.1 h
  cases h
  have hboth : b.kind.mayBeGlobal = true ∧ b.readOnly = true := by simpa using hguard
  exact ⟨by simp [readThrough?, hn, hkind, hv], hb, hboth.2⟩

/-- A call of a builtin goes through a variable that is known never to be rebound. -/
theorem calledThrough?_of_builtin {version : Version} {name : String} (h : t.calledBuiltin? version id = some (v, name)) :
    t.calledThrough? id = some v ∧ ∃ b, t.bindings[v.index]? = some b ∧ b.readOnly = true := by
  obtain ⟨n, called, b, hn, hkind, hcalled, hread⟩ := Plan.calledBuiltin?_eq_some h
  obtain ⟨hthrough, hb, hreadOnly⟩ := readThrough?_of_readOnly hread
  exact ⟨by simp [calledThrough?, hn, hkind, hcalled, Except.toOption, hthrough], b, hb, hreadOnly⟩

/-- A statement that a call makes up goes through the variable of the call. -/
theorem through_of_stated {call : NodeId} (hkind : t.kind id = .ok .statementExpressionOnly)
    (hcall : t.child id "expression" = .ok (some call)) (hthrough : t.calledThrough? call = some v) :
    (t.calledThrough? id).or (t.statedThrough? id) = some v := by
  obtain ⟨n, hn, hkind⟩ := kind_eq_ok_iff.1 hkind
  have hnot : t.calledThrough? id = none := by simp [calledThrough?, hn, hkind]
  simp [hnot, statedThrough?, hn, hkind, hcall, Except.toOption, hthrough]

/-- **A look that replaces goes through a variable that is known never to be rebound**, unless it folds constants. -/
theorem enter_through {visitor : Visitor} (h : visitor.enter id s w = .ok id' w') (hne : id' ≠ id)
    (hvisitor : visitor ≠ .constantFolding) : ∃ v b, Look.through? ⟨visitor, id, w.tree, id'⟩ = some v ∧
      w.tree.bindings[v.index]? = some b ∧ b.readOnly = true := by
  have call {handlers : DispatchTable String CallHandler} (h : replaceCall handlers id s w = .ok id' w') :
      ∃ v b, w.tree.calledThrough? id = some v ∧ w.tree.bindings[v.index]? = some b ∧ b.readOnly = true := by
    obtain ⟨v, name, -, -, -, hcalled, -⟩ := (replaceCall_eq_ok h).resolve_left hne
    obtain ⟨hthrough, b, hb⟩ := calledThrough?_of_builtin hcalled
    exact ⟨v, b, hthrough, hb⟩
  cases visitor with
  | criticalBuiltins =>
    obtain ⟨statement?, w₁, hstatement, h⟩ := reads_bind_eq_ok_iff.1 h
    rcases replaceExecStatement_eq_ok hstatement with ⟨rfl, rfl⟩ | ⟨new, node, v, name, -, -, -, -, -, rfl, hkind, hnode,
      hcalled, -⟩
    · obtain ⟨v, b, hthrough, hb⟩ := call h
      exact ⟨v, b, by simp [Look.through?, hthrough], hb⟩
    · obtain ⟨hthrough, b, hb⟩ := calledThrough?_of_builtin hcalled
      exact ⟨v, b, through_of_stated hkind hnode hthrough, hb⟩
  | optionalBuiltins => exact call h
  | exceptionNames =>
    obtain ⟨⟨v, b⟩, hread⟩ := (replaceName_eq_ok h).resolve_left hne
    exact ⟨v, b, readThrough?_of_readOnly hread⟩
  | constantFolding => exact absurd rfl hvisitor

end Through

/-- **Calls and names are replaced only through variables that nothing can rebind.** Whatever was replaced before in the
same pass, a look that replaces goes through a variable that nothing reachable could rebind when the pass began. -/
theorem runPass_gated {s : Settings} {r r' : Run} (hc : r.tree.Consistent) (hrun : RunM.runPass s r = .ok () r') :
    ∃ root looks, r.tree.root = some root ∧ RunM.lookPass s r = .ok looks r' ∧
      ∀ look ∈ looks, look.visitor ≠ .constantFolding → look.after ≠ look.node →
        ∃ v b, look.through? = some v ∧ r.tree.bindings[v.index]? = some b ∧ r.tree.NeverRebound root v b := by
  obtain ⟨count, decided, units, looks, hdecided, hunits, hlooks, hsaw⟩ := runPass_looks hrun
  cases hroot : r.tree.root with
  | none =>
    -- without a root there is nothing to decide and no unit to run
    have hsame : TreeM.annotateReadOnly r.tree = .ok 0 r.tree := by
      rw [TreeM.annotateReadOnly, run_get_bind, hroot]
      rfl
    cases hdecided.symm.trans hsame
    rw [Tree.units, hroot] at hunits
    cases hunits
  | some root =>
    obtain ⟨rebindings, count', hrebindings, hannotate⟩ := hc.annotateReadOnly_ok hroot
    cases hdecided.symm.trans hannotate
    refine ⟨root, looks, rfl, hlooks, fun look hlook hvisitor hreplaced => ?_⟩
    obtain ⟨w, w', hbefore, hsame, henter⟩ := hsaw look hlook
    obtain ⟨v, b, hthrough, hb, hreadOnly⟩ := enter_through henter hreplaced hvisitor
    obtain ⟨b₁, hb₁, heq⟩ := getElem?_uncounted hsame hb
    rw [getElem?_decided] at hb₁
    obtain ⟨b₀, hb₀, rfl⟩ := Option.map_eq_some_iff.1 hb₁
    rw [if_pos (Array.getElem?_eq_some_iff.1 hb₀).1] at heq
    have hdecision : r.tree.isReadOnly root rebindings v b₀ = true := by rw [← hreadOnly, heq]
    rw [← hbefore] at hthrough
    exact ⟨v, b₀, hthrough, hb₀, (hc.isReadOnly_iff hroot hrebindings).1 hdecision⟩

theorem runPass_gated_keywordCall : ∃ r' looks,
    RunM.runPass ⟨{}, .ofTable []⟩ { tree := Tree.keywordCall } = .ok () r' ∧
      RunM.lookPass ⟨{}, .ofTable []⟩ { tree := Tree.keywordCall } = .ok looks r' ∧
      ∃ look ∈ looks, look.visitor = .optionalBuiltins ∧ look.after ≠ look.node ∧ ∃ root v b, look.through? = some v ∧
        Tree.keywordCall.bindings[v.index]? = some b ∧ Tree.keywordCall.NeverRebound root v b := by
  have hpass : (match RunM.runPass ⟨{}, .ofTable []⟩ { tree := Tree.keywordCall } with
      | .ok _ _ => true
      | .error _ _ => false) = true := by decide +kernel
  have hreplaces : (match RunM.lookPass ⟨{}, .ofTable []⟩ { tree := Tree.keywordCall } with
      | .ok looks _ => looks.any fun look => look.visitor = .optionalBuiltins ∧ look.after ≠ look.node
      | .error _ _ => false) = true := by decide +kernel
  have hc : ({ tree := Tree.keywordCall } : Run).tree.Consistent := by
    dsimp only
    exact Tree.keywordCall_wellFormed.built.consistent
  generalize hrun : RunM.runPass ⟨{}, .ofTable []⟩ { tree := Tree.keywordCall } = outcome at hpass
  cases outcome with
  | error e r => cases hpass
  | ok _ r =>
    obtain ⟨root, looks, -, hlooks, hgated⟩ := runPass_gated hc hrun
    dsimp only at hgated
    rw [hlooks] at hreplaces
    obtain ⟨look, hlook, hreplaced⟩ := List.any_eq_true.1 hreplaces
    obtain ⟨hvisitor, hafter⟩ := of_decide_eq_true hreplaced
    obtain ⟨v, b, hthrough⟩ := hgated look hlook (by simp [hvisitor]) hafter
    exact ⟨r, looks, rfl, hlooks, look, hlook, hvisitor, hafter, root, v, b, hthrough⟩

end Specializer
