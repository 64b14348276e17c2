import Specializer.Proofs.FixedPoint.PassLimit
import Specializer.Proofs.Replacement.ConstantCall

/-!
# Calls over constants are evaluated

The value of a call over constants is found in two steps by two visitors: one binds the arguments and moves them into the
slots of an operation, another reads them back from there and evaluates the builtin. `Signature.evaluateCall` says what
the call comes to without any tree, by binding the constants and evaluating the builtin with them. A visit of the call
leaves just that in its place (`ReplaceM.visit_evaluates`): after both steps there is nothing left that the rest of the
walk could change, neither on the way down (`Inert`) nor on the way up (`Undisturbed`).
-/

namespace Specializer

/-! ## Direct evaluation -/

/-- What a call of a builtin over constants comes to. -/
inductive CallOutcome where
  | value (value : Constant)
  | raises (raised : RaisedException)
  /-- The keywords cannot be moved into the parameters. -/
  | kept
  /-- The builtin declines to be evaluated with these arguments. -/
  | operation (args : BoundArguments Constant)

/-- Binds constants and evaluates the builtin with them. -/
def Signature.evaluateCall (S : Signature) (builtin : PureBuiltin) (version : Version) (positional : List Constant)
    (keywords : List (String × Constant)) : CallOutcome :=
  match S.bind positional keywords with
  | .error e => .raises ⟨.typeError, S.errorMessage e⟩
  | .ok args =>
    if S.keywordsInOrder keywords then
      match builtin.evaluate args version with
      | .ok value => .value value
      | .error (.raise raised) => .raises raised
      | .error .decline => .operation args
    else .kept

/-- A node in a later tree is what a call came to. An operation evaluates the same constants in the same order. -/
def Tree.Realizes (t t' : Tree) (call id : NodeId) (name : String) : CallOutcome → Prop
  | .value value => t'.IsConstant id value
  | .raises raised => t'.IsRaise id raised
  | .kept => id = call ∧ t' = t
  | .operation args => t'.IsOperation id name args ∧ t.EvaluatesAll t' (t.arguments call) id

/-- The name of an exception takes more than five bytes. -/
theorem ExceptionKind.ofName?_of_short (version : Version) {name : String} (h : name.utf8ByteSize ≤ 5) :
    ofName? version name = none := by
  have hlong : ∀ kind ∈ all, 5 < kind.name.utf8ByteSize := by decide +kernel
  rw [ofName?, List.find?_eq_none]
  intro kind hkind hfound
  have hsame : kind.name = name := by simpa using (Bool.and_eq_true_iff.1 hfound).1
  have hname := hlong kind hkind
  rw [hsame] at hname
  omega

/-- A builtin that can be evaluated is neither critical nor the name of a constant or an exception. -/
theorem ordinary_of_key {name : String} {S : Signature} {builtin : PureBuiltin} (hS : Signature.ofKey? name = some S)
    (hevaluator : S.evaluator = some builtin) : CallHandler.critical.lookup? name = none ∧
      quickNames.lookup? name = none ∧ ∀ version, ExceptionKind.ofName? version name = none := by
  unfold Signature.ofKey? at hS
  split at hS <;> cases hS <;> cases hevaluator
  all_goals exact ⟨rfl, rfl, fun version => ExceptionKind.ofName?_of_short version (by decide)⟩

namespace ReplaceM

open Specializer.Tree

variable {s : Settings} {t : Tree} {w w' : Workspace} {call id id' unit : NodeId} {n : Node} {name : String}
  {S : Signature} {builtin : PureBuiltin} {args : BoundArguments Constant} {positional : List Constant}
  {keywords : List (String × Constant)}

/-! ## Nodes a walk leaves alone -/

/-- A node that a walk leaves alone, with all below it. -/
inductive Inert (s : Settings) (t : Tree) : NodeId → Prop where
  | intro {id : NodeId} {n : Node} (hn : t.get? id = some n) (henter : Rests s t (enterNode id) id false)
    (hcompute : ∃ aborts, Rests s t (computeNode id >>= applyComputed id) id aborts)
    (hbelow : ∀ c ∈ n.children, Inert s t c) : Inert s t id

/-- A node that a walk leaves alone once the visitors are done with it. -/
structure Undisturbed (s : Settings) (t : Tree) (id : NodeId) : Prop where
  compute : ∃ aborts, Rests s t (computeNode id >>= applyComputed id) id aborts
  below : ∃ n, t.get? id = some n ∧ ∀ c ∈ n.children, Inert s t c

theorem Inert.enter (h : Inert s t id) : Rests s t (enterNode id) id false := by
  cases h with
  | intro _ henter _ _ => exact henter

theorem Inert.undisturbed (h : Inert s t id) : Undisturbed s t id := by
  cases h with
  | intro hn _ hcompute hbelow => exact ⟨hcompute, _, hn, hbelow⟩

theorem visitChildren_inert {visit : NodeId → ReplaceM Unit} {parent : NodeId} {inSequence : Bool}
    (hvisit : ∀ {c w w'}, Inert s w.tree c → visit c s w = .ok () w' → w'.tree = w.tree) :
    ∀ {children : List NodeId} {w : Workspace}, (∀ c ∈ children, Inert s w.tree c) →
      visitChildren visit parent inSequence children s w = .ok () w' → w'.tree = w.tree
  | [], w, _, hrun => by
    cases hrun
    rfl
  | c :: rest, w, hinert, hrun => by
    obtain ⟨hfirst, hrest⟩ := List.forall_mem_cons.1 hinert
    rw [visitChildren, reads_bind_of_ok (show (get : ReplaceM Workspace) s w = .ok w w from rfl)] at hrun
    split at hrun
    · cases hrun
      rfl
    · rw [reads_bind_of_ok tree_ok] at hrun
      split at hrun
      · obtain ⟨_, w₁, hstep, hrun⟩ := reads_bind_eq_ok_iff.1 hrun
        have hsame := hvisit hfirst hstep
        exact (visitChildren_inert hvisit (hsame ▸ hrest) hrun).trans hsame
      · exact visitChildren_inert hvisit hrest hrun

theorem visitEntered_undisturbed {fuel : Nat}
    (hvisit : ∀ {c c' w w'}, Inert s w.tree c → visit unit fuel c s w = .ok c' w' → c' = c ∧ w'.tree = w.tree)
    (h : Undisturbed s w.tree id) (hrun : visitEntered unit fuel id s w = .ok id' w') :
    id' = id ∧ w'.tree = w.tree := by
  obtain ⟨⟨aborts, hcompute⟩, n, hn, hbelow⟩ := h
  rw [visitEntered, reads_bind_of_ok (ask_ok (node_of_get? hn))] at hrun
  split at hrun
  · cases hrun
    exact ⟨rfl, rfl⟩
  · obtain ⟨_, w₁, hchildren, hrun⟩ := reads_bind_eq_ok_iff.1 hrun
    have hsame : w₁.tree = w.tree := visitChildren_inert (fun hc hrun => by
      obtain ⟨c', hrun⟩ := discard_eq_ok hrun
      exact (hvisit hc hrun).2) hbelow hchildren
    split at hrun
    · cases hrun
      exact ⟨rfl, hsame⟩
    · rw [← hsame] at hcompute
      obtain ⟨hid, htree, -⟩ := hcompute.eq_of_ok hrun
      exact ⟨hid, htree.trans hsame⟩

/-- **A walk does nothing to such a node.** -/
theorem visit_inert : ∀ {fuel : Nat} {id id' : NodeId} {w w' : Workspace}, Inert s w.tree id →
    visit unit fuel id s w = .ok id' w' → id' = id ∧ w'.tree = w.tree
  | 0, _, _, _, _, _, hrun => nomatch hrun
  | fuel + 1, id, id', w, w', h, hrun => by
    rw [visit_succ] at hrun
    split at hrun
    · exact visitEntered_undisturbed visit_inert h.undisturbed hrun
    · obtain ⟨current, w₁, henter, hvisit⟩ := reads_bind_eq_ok_iff.1 hrun
      obtain ⟨rfl, hsame, -⟩ := h.enter.eq_of_ok henter
      rw [← hsame] at h
      obtain ⟨hid, htree⟩ := visitEntered_undisturbed visit_inert h.undisturbed hvisit
      exact ⟨hid, htree.trans hsame⟩

/-! ## Constants and names -/

theorem inert_of_forall₂ {β : Type} {R : NodeId → β → Prop} {ids : List NodeId} {values : List β}
    (h : List.Forall₂ R ids values) (hR : ∀ {x value}, R x value → Inert s t x) : ∀ x ∈ ids, Inert s t x :=
  ((List.forall₂_and_left _ _).1 (h.imp fun _ _ hx => ⟨hR hx, hx⟩)).1

theorem enterNode_rests (h : ∀ visitor : Visitor, Rests s t (visitor.enter id) id false) :
    Rests s t (enterNode id) id false := by
  refine .andThen .read ?_
  induction s.options.visitors with
  | nil => exact .ret
  | cons visitor visitors ih =>
    rw [List.foldlM_cons]
    exact .andThen (h visitor) ih

theorem compute_rests (hn : t.get? id = some n)
    (hkind : n.kind ∉ [.sideEffects, .builtinRange, .importModule, .importName]) :
    ∃ aborts, Rests s t (computeNode id >>= applyComputed id) id aborts :=
  ⟨_, (computeNode_rests hn hkind).bind .ret⟩

theorem Anonymous.inert (h : Anonymous t id n) (hfold : foldHandler? n.kind = none)
    (hkind : n.kind ∉ [.sideEffects, .builtinRange, .importModule, .importName])
    (hbelow : ∀ c ∈ n.children, Inert s t c) : Inert s t id := by
  refine .intro h.live (enterNode_rests fun visitor => ?_) (compute_rests h.live hkind) hbelow
  by_cases hvisitor : visitor = .constantFolding
  · subst hvisitor
    exact foldOperation_rests_of_none h.live hfold
  · exact h.enter_rests visitor hvisitor

theorem anonymous_of_kind (hn : t.get? id = some n)
    (hkind : n.kind ∉ [.functionCall, .variableRef, .statementExpressionOnly]) : Anonymous t id n := by
  simp only [List.mem_cons, List.not_mem_nil, or_false, not_or] at hkind
  exact ⟨hn, hkind.1, hkind.2.1, fun e => absurd e hkind.2.2⟩

theorem inert_of_constant {value : Constant} (hc : t.Consistent) (h : t.constant? id = some value) : Inert s t id := by
  obtain ⟨n, hn, hkind, hchildren⟩ := hc.constantRef h
  refine (anonymous_of_kind hn (by simp [hkind])).inert (hkind ▸ rfl) (by simp [hkind]) ?_
  simp [hchildren]

theorem inert_of_entry {entry : String × Constant} (hc : t.Consistent) (h : t.IsEntry id entry) : Inert s t id := by
  obtain ⟨n, key, value, hn, hkind, hslots, hkey, hvalue⟩ := h
  refine (anonymous_of_kind hn (by simp [hkind])).inert (hkind ▸ rfl) (by simp [hkind]) ?_
  have hchildren : n.children = [key, value] := by
    rw [Node.children, hslots]
    rfl
  rw [hchildren]
  simpa using ⟨inert_of_constant hc hkey, inert_of_constant hc hvalue.constant?⟩

/-- A node of a kind without slots has no children. -/
theorem children_of_noSlots (hc : t.Consistent) (hn : t.get? id = some n) (hslots : n.kind.slots = []) :
    n.children = [] := by
  have hforms := (hc.conforms hn).forms
  rw [hslots, List.map_nil, List.map_eq_nil_iff] at hforms
  rw [Node.children, hforms, List.flatMap_nil]

theorem inert_of_name (hc : t.Consistent) (h : t.ReadsGlobal id name) (hS : Signature.ofKey? name = some S)
    (hevaluator : S.evaluator = some builtin) : Inert s t id := by
  obtain ⟨v, b, hread, hname⟩ := h.readOnlyVariable?
  obtain ⟨n, -, -, hn, hkind, -⟩ := h
  obtain ⟨-, hquick, hexception⟩ := ordinary_of_key hS hevaluator
  have hcall {handlers : DispatchTable String CallHandler} : Rests s t (replaceCall handlers id) id false :=
    replaceCall_rests hn (by simp [hkind])
  have hnamed {source : SourceRef} : Rests s t (makeNamed b.name source) none false := by
    rw [makeNamed, hname, hquick]
    refine .andThen .version ?_
    rw [hexception]
    exact .ret
  refine .intro hn (enterNode_rests fun visitor => ?_) (compute_rests hn (by simp [hkind])) ?_
  · cases visitor with
    | criticalBuiltins =>
      exact .andThen (replaceExecStatement_rests hn fun e => nomatch hkind.symm.trans e) hcall
    | optionalBuiltins => exact hcall
    | exceptionNames =>
      refine .andThen .look ?_
      rw [hread]
      exact .andThen (.ask (source_ok hn)) (.andThen hnamed .ret)
    | constantFolding => exact foldOperation_rests_of_none hn (hkind ▸ rfl)
  · rw [children_of_noSlots hc hn (by rw [hkind]; rfl)]
    simp

/-! ## What the visitors leave -/

theorem undisturbed_of_leaf {kind : NodeKind} {payload : Payload} (hc : t.Consistent) (h : t.Shows id kind payload)
    (hslots : kind.slots = []) (hkind : kind ∉ [.sideEffects, .builtinRange, .importModule, .importName]) :
    Undisturbed s t id := by
  obtain ⟨n, hn, rfl, -, -⟩ := h
  refine ⟨compute_rests hn hkind, n, hn, ?_⟩
  simp [children_of_noSlots hc hn hslots]

theorem undisturbed_call (hc : t.Consistent) (hcall : t.IsConstantCall call name positional keywords)
    (hS : Signature.ofKey? name = some S) (hevaluator : S.evaluator = some builtin) : Undisturbed s t call := by
  obtain ⟨n, called, args, pairs, hn, hkind, hslots, hcalled, hargs, hpairs⟩ := hcall
  have hchildren : n.children = called :: (args ++ pairs) := by simp [Node.children, hslots, Slot.ids, Slot.filled]
  refine ⟨compute_rests hn (by simp [hkind]), n, hn, ?_⟩
  rw [hchildren, List.forall_mem_cons, List.forall_mem_append]
  refine ⟨inert_of_name hc hcalled hS hevaluator, inert_of_forall₂ hargs ?_, inert_of_forall₂ hpairs ?_⟩
  · exact fun h => inert_of_constant hc h.constant?
  · exact inert_of_entry hc

theorem inert_of_holds {slot : Slot} {value : Option Constant} (hc : t.Consistent) (h : t.Holds slot value) :
    ∀ x ∈ slot.ids, Inert s t x := by
  cases h with
  | empty => simp [Slot.ids]
  | filled h => simpa [Slot.ids, Slot.filled] using inert_of_constant hc h.constant?

theorem inert_of_operands {kind : NodeKind} {slots : List Slot} (hc : t.Consistent) (h : t.Operands kind slots args) :
    ∀ x ∈ slots.flatMap Slot.ids, Inert s t x := by
  cases h with
  | params _ hvalues =>
    induction hvalues with
    | nil => simp
    | cons hvalue _ ih =>
      rw [List.flatMap_cons, List.forall_mem_append]
      exact ⟨inert_of_holds hc hvalue, ih⟩
  | dict hvalue hentries =>
    simp only [List.flatMap_cons, List.flatMap_nil, List.append_nil, List.forall_mem_append]
    exact ⟨inert_of_holds hc hvalue, inert_of_forall₂ hentries (inert_of_entry hc)⟩

theorem undisturbed_operation (hc : t.Consistent) (hop : t.IsOperation id name args)
    (hS : Signature.ofKey? name = some S) (hevaluator : S.evaluator = some builtin)
    (hdeclined : builtin.evaluate args s.options.version = .error .decline) : Undisturbed s t id := by
  refine ⟨⟨false, compute_rests_of_declined hc hop hS hevaluator (by rw [hdeclined]; rfl)⟩, ?_⟩
  obtain ⟨n, hn, -, hoperands⟩ := hop
  exact ⟨n, hn, inert_of_operands hc hoperands⟩

/-! ## The visitors -/

/-- All visitors, in their order. -/
theorem enterNode_all (hbuiltins : s.options.builtinReplacement = true)
    (hnames : s.options.exceptionNameReplacement = true) (hfolding : s.options.constantFolding = true) :
    enterNode id s w = (do
      let specialized ← replaceOptionalBuiltin (← replaceCriticalBuiltin id)
      foldOperation (← replaceName specialized)) s w := by
  rw [enterNode, reads_bind_of_ok settings_ok]
  simp [Options.visitors, hbuiltins, hnames, hfolding, Visitor.enter]

/-- The critical visitor passes such a call by. -/
theorem replaceCriticalBuiltin_rests (hcall : t.IsConstantCall call name positional keywords)
    (hS : Signature.ofKey? name = some S) (hevaluator : S.evaluator = some builtin)
    (hbuiltin : BuiltinName.isBuiltin s.options.version name = true) :
    Rests s t (replaceCriticalBuiltin call) call false := by
  obtain ⟨hcritical, -, -⟩ := ordinary_of_key hS hevaluator
  obtain ⟨v, site, hcalled, -⟩ := hcall.read hbuiltin
  obtain ⟨n, -, -, -, hn, hkind, -⟩ := hcall
  refine .andThen (replaceExecStatement_rests hn fun e => nomatch hkind.symm.trans e) ?_
  refine .andThen .look (.andThen .version ?_)
  simp only [hcalled, hcritical]
  exact .ret

theorem replaceName_fold_rests (hn : t.get? id = some n) (hkind : n.kind ≠ .variableRef)
    (hfold : foldHandler? n.kind = none) : Rests s t (replaceName id >>= foldOperation) id false :=
  .andThen (replaceName_rests hn hkind) (foldOperation_rests_of_none hn hfold)

/-- What has become an operation is known to the last visitor only, which folds it unless the builtin declines. -/
theorem operation_evaluates {operation : NodeId} (hc : t.Consistent) (hplace : TakesPlace t w.tree call operation)
    (hop : w.tree.IsOperation operation name args) (hevaluates : t.EvaluatesAll w.tree (t.arguments call) operation)
    (hS : Signature.ofKey? name = some S) (hevaluator : S.evaluator = some builtin)
    (hbind : S.bind positional keywords = .ok args) (horder : S.keywordsInOrder keywords = true)
    (hrun : (replaceName operation >>= foldOperation) s w = .ok id' w') :
    InPlaceOf t w'.tree call id' ∧ Undisturbed s w'.tree id' ∧
      t.Realizes w'.tree call id' name (S.evaluateCall builtin s.options.version positional keywords) := by
  obtain ⟨n, hn, hkey, -⟩ := id hop
  obtain ⟨_, w₁, hname, hfold⟩ := reads_bind_eq_ok_iff.1 hrun
  have hreference : n.kind ≠ .variableRef := fun hkind => by
    rw [hkind] at hkey
    cases hkey
  obtain ⟨rfl, hsame, -⟩ := (replaceName_rests hn hreference).eq_of_ok hname
  rw [← hsame] at hplace hop hevaluates
  have hfolded := foldOperation_eq_ok hplace.consistent hop hS hevaluator hfold
  simp only [Signature.evaluateCall, hbind, horder, if_true]
  cases houtcome : builtin.evaluate args s.options.version with
  | ok value =>
    simp only [houtcome, Outcome.leaf?] at hfolded ⊢
    obtain ⟨hplace', hshows⟩ := hfolded
    exact ⟨hplace.trans hplace' hc, undisturbed_of_leaf hplace'.consistent hshows rfl (by decide), hshows⟩
  | error fault =>
    cases fault with
    | raise raised =>
      simp only [houtcome, Outcome.leaf?] at hfolded ⊢
      obtain ⟨hplace', hshows⟩ := hfolded
      exact ⟨hplace.trans hplace' hc, undisturbed_of_leaf hplace'.consistent hshows rfl (by decide), hshows⟩
    | decline =>
      simp only [houtcome, Outcome.leaf?] at hfolded ⊢
      obtain ⟨rfl, hsame'⟩ := hfolded
      rw [hsame']
      exact ⟨hplace.inPlaceOf, undisturbed_operation hplace.consistent hop hS hevaluator houtcome, hop, hevaluates⟩

/-- **The visitors put what the call comes to in its place**, and nothing that the rest of the walk could change. -/
theorem enterNode_evaluates (hbuiltins : s.options.builtinReplacement = true)
    (hnames : s.options.exceptionNameReplacement = true) (hfolding : s.options.constantFolding = true)
    (hc : w.tree.Consistent) (hcall : w.tree.IsConstantCall call name positional keywords)
    (hS : Signature.ofKey? name = some S) (hevaluator : S.evaluator = some builtin)
    (hbuiltin : BuiltinName.isBuiltin s.options.version name = true) (hrun : enterNode call s w = .ok id' w') :
    InPlaceOf w.tree w'.tree call id' ∧ Undisturbed s w'.tree id' ∧
      w.tree.Realizes w'.tree call id' name (S.evaluateCall builtin s.options.version positional keywords) := by
  rw [enterNode_all hbuiltins hnames hfolding] at hrun
  -- the first visitor passes the call by, so it is the second one that binds its arguments
  obtain ⟨entered, w₁, hcritical, hlater⟩ := reads_bind_eq_ok_iff.1 hrun
  obtain ⟨rfl, hsame, -⟩ := (replaceCriticalBuiltin_rests hcall hS hevaluator hbuiltin).eq_of_ok hcritical
  rw [← hsame] at hc hcall ⊢
  obtain ⟨specialized, w₂, hoptional, hlast⟩ := reads_bind_eq_ok_iff.1 hlater
  have hcases := replaceCall_constants hc hcall hS hevaluator hbuiltin hoptional
  cases hbind : S.bind positional keywords with
  | error e =>
    simp only [hbind, Signature.evaluateCall] at hcases ⊢
    obtain ⟨hplace, hraise⟩ := hcases
    obtain ⟨n, hn, hkind, -⟩ := id hraise
    obtain ⟨rfl, hsame₂, -⟩ := (replaceName_fold_rests hn (by simp [hkind]) (hkind ▸ rfl)).eq_of_ok hlast
    rw [hsame₂]
    exact ⟨hplace.inPlaceOf, undisturbed_of_leaf hplace.consistent hraise rfl (by decide), hraise⟩
  | ok args =>
    cases horder : S.keywordsInOrder keywords with
    | false =>
      simp only [hbind, horder, Signature.evaluateCall, Bool.false_eq_true, if_false] at hcases ⊢
      obtain ⟨rfl, rfl⟩ := hcases
      have hleft := undisturbed_call (s := s) hc hcall hS hevaluator
      obtain ⟨n, -, -, -, hn, hkind, -⟩ := hcall
      obtain ⟨rfl, hsame₂, -⟩ := (replaceName_fold_rests hn (by simp [hkind]) (hkind ▸ rfl)).eq_of_ok hlast
      rw [hsame₂]
      exact ⟨.refl .., hleft, rfl, rfl⟩
    | true =>
      simp only [hbind, horder, if_true] at hcases
      obtain ⟨hplace, hop, hevaluates⟩ := hcases
      exact operation_evaluates hc hplace hop hevaluates hS hevaluator hbind horder hlast

/-- **A visit of a call over constants evaluates it.** In the place of the call it leaves the value or the exception that
the builtin evaluates to, the `TypeError` of arguments that cannot be bound, the operation over the same constants if the
builtin declines, and the call itself, with the whole tree, if its keywords cannot be moved into the parameters. -/
theorem visit_evaluates (hbuiltins : s.options.builtinReplacement = true)
    (hnames : s.options.exceptionNameReplacement = true) (hfolding : s.options.constantFolding = true)
    (hc : w.tree.Consistent) (hcall : w.tree.IsConstantCall call name positional keywords)
    (hS : Signature.ofKey? name = some S) (hevaluator : S.evaluator = some builtin)
    (hbuiltin : BuiltinName.isBuiltin s.options.version name = true) (hunit : call ≠ unit) {fuel : Nat}
    (hrun : visit unit fuel call s w = .ok id' w') : InPlaceOf w.tree w'.tree call id' ∧
      w.tree.Realizes w'.tree call id' name (S.evaluateCall builtin s.options.version positional keywords) := by
  cases fuel with
  | zero => cases hrun
  | succ fuel =>
    rw [visit_succ, if_neg hunit] at hrun
    obtain ⟨current, w₁, henter, hvisit⟩ := reads_bind_eq_ok_iff.1 hrun
    obtain ⟨hplace, hleft, hrealizes⟩ :=
      enterNode_evaluates hbuiltins hnames hfolding hc hcall hS hevaluator hbuiltin henter
    obtain ⟨rfl, hsame⟩ := visitEntered_undisturbed visit_inert hleft hvisit
    rw [hsame]
    exact ⟨hplace, hrealizes⟩

end ReplaceM

/-! ## A hexadecimal number -/

/-- The module `int("ff", base=16)`, where nothing rebinds `int`. -/
def Tree.hexadecimal : Tree :=
  .applyAll {} [
    .makeScope .module "m" default,
    .declareVariable ⟨0⟩ "int" .module,
    .setReadOnly ⟨0⟩ true,
    .makeVariableRef ⟨0⟩ default,
    .makeConstant (.str "ff") default,
    .makeConstant (.str "base") default,
    .makeConstant (.int 16) default,
    .makeKeyValue ⟨3⟩ ⟨4⟩ default,
    .makeCall ⟨1⟩ [⟨2⟩] [⟨5⟩] default,
    .makeExpressionStatement ⟨6⟩ default,
    .makeStatements [⟨7⟩] default,
    .setBody ⟨0⟩ ⟨8⟩,
    .setRoot ⟨0⟩]

set_option maxRecDepth 1000 in
theorem Tree.hexadecimal_isConstantCall : hexadecimal.IsConstantCall ⟨6⟩ "int" [.str "ff"] [("base", .int 16)] := by
  refine ⟨_, ⟨1⟩, [⟨2⟩], [⟨5⟩], rfl, rfl, rfl, ?_, ?_, ?_⟩
  · exact ⟨_, ⟨0⟩, _, rfl, rfl, rfl, rfl, .inl rfl, rfl, rfl⟩
  · exact .cons ⟨_, rfl, rfl, rfl, rfl⟩ .nil
  · exact .cons ⟨_, ⟨3⟩, ⟨4⟩, rfl, rfl, rfl, rfl, _, rfl, rfl, rfl, rfl⟩ .nil

theorem visit_evaluates_hexadecimal : ∃ id w',
    ReplaceM.visit ⟨0⟩ 8 ⟨6⟩ ⟨{}, .ofTable []⟩ Tree.hexadecimal.atModule = .ok id w' ∧
      Tree.hexadecimal.InPlaceOf w'.tree ⟨6⟩ id ∧ w'.tree.IsConstant id (.int 255) := by
  have look {t : Tree} (hc : t.Consistent) (hcall : t.IsConstantCall ⟨6⟩ "int" [.str "ff"] [("base", .int 16)])
      (hrun : (match ReplaceM.visit ⟨0⟩ 8 ⟨6⟩ ⟨{}, .ofTable []⟩ t.atModule with
        | .ok _ _ => true
        | .error _ _ => false) = true) : ∃ id w',
      ReplaceM.visit ⟨0⟩ 8 ⟨6⟩ ⟨{}, .ofTable []⟩ t.atModule = .ok id w' ∧ t.InPlaceOf w'.tree ⟨6⟩ id ∧
        w'.tree.IsConstant id (.int 255) := by
    generalize hvisit : ReplaceM.visit ⟨0⟩ 8 ⟨6⟩ ⟨{}, .ofTable []⟩ t.atModule = outcome at hrun
    cases outcome with
    | error e w' => cases hrun
    | ok id w' =>
      obtain ⟨hplace, hvalue⟩ := ReplaceM.visit_evaluates (s := ⟨{}, .ofTable []⟩) (w := t.atModule) rfl rfl rfl hc hcall
        rfl rfl (by decide +kernel) (by decide) hvisit
      exact ⟨id, w', rfl, hplace, hvalue⟩
  have hbuilt : Tree.hexadecimal.Built := ⟨_, rfl⟩
  exact look hbuilt.consistent Tree.hexadecimal_isConstantCall (by decide +kernel)

end Specializer
