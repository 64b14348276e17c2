import Specializer.Proofs.FixedPoint.Repetition
import Specializer.Proofs.Replacement.Discarding

/-!
# The limit of passes

An operation is looked at before its operands, so a walk folds only the innermost of nested operations. `Tower` describes
a module that is nothing but `n` such operations. Each pass takes exactly one level off it (`Tower.runPass_eq_ok`), so it
needs `n` passes that change something and one more to see that nothing is left to do; any lower limit is hit
(`Tower.runPasses_eq_error`). The default limit is hit by sixty-four nested calls (`highTower_exceedsLimit`).

A limit that grows with the tree is safe: there are at most seven changes for each node
(`optimizeModule_within_limit`).
-/

namespace Specializer

/-- A kind whose nodes are walked through and only tell the trace what control may do. -/
def NodeKind.isTransparent (kind : NodeKind) : Bool :=
  kind ∉ [.functionBody, .sideEffects, .builtinRange, .importModule, .importName]

namespace ReplaceM

open Specializer.Tree

variable {s : Settings} {t : Tree} {w w' : Workspace} {id id' unit parent : NodeId} {n : Node}

/-! ## Nodes the visitors pass by -/

theorem calledBuiltin?_of_kind {version : Version} (hn : t.get? id = some n) (hkind : n.kind ≠ .functionCall) :
    t.calledBuiltin? version id = none := by
  simp [calledBuiltin?, hn, hkind, guard, failure]

theorem readOnlyVariable?_of_kind (hn : t.get? id = some n) (hkind : n.kind ≠ .variableRef) :
    t.readOnlyVariable? id = none := by
  simp [readOnlyVariable?, hn, hkind, guard, failure]

theorem replaceCall_rests {handlers : DispatchTable String CallHandler} (hn : t.get? id = some n)
    (hkind : n.kind ≠ .functionCall) : Rests s t (replaceCall handlers id) id false := by
  refine .andThen .look (.andThen .version ?_)
  rw [calledBuiltin?_of_kind hn hkind]
  exact .ret

theorem replaceName_rests (hn : t.get? id = some n) (hkind : n.kind ≠ .variableRef) :
    Rests s t (replaceName id) id false := by
  refine .andThen .look ?_
  rw [readOnlyVariable?_of_kind hn hkind]
  exact .ret

/-- A statement that is no call stays as it is. -/
theorem replaceExecStatement_rests (hn : t.get? id = some n)
    (hcall : n.kind = .statementExpressionOnly → ∃ e m, t.child id "expression" = .ok (some e) ∧ t.get? e = some m ∧
      m.kind ≠ .functionCall) : Rests s t (replaceExecStatement id) none false := by
  refine .andThen (.ask (kind_ok hn)) ?_
  by_cases hkind : n.kind = .statementExpressionOnly
  · obtain ⟨e, m, hchild, hm, hm'⟩ := hcall hkind
    rw [if_neg (by simp [hkind])]
    refine .andThen (.ask hchild) ?_
    refine .andThen .look (.andThen .version ?_)
    rw [calledBuiltin?_of_kind hm hm']
    exact .ret
  · rw [if_pos hkind]
    exact .ret

/-- A node that is neither a call nor a reference, nor a call as a statement. -/
structure Anonymous (t : Tree) (id : NodeId) (n : Node) : Prop where
  live : t.get? id = some n
  call : n.kind ≠ .functionCall
  reference : n.kind ≠ .variableRef
  statement : n.kind = .statementExpressionOnly → ∃ e m, t.child id "expression" = .ok (some e) ∧ t.get? e = some m ∧
    m.kind ≠ .functionCall

theorem Anonymous.enter_rests (h : Anonymous t id n) (visitor : Visitor) (hvisitor : visitor ≠ .constantFolding) :
    Rests s t (visitor.enter id) id false := by
  cases visitor with
  | criticalBuiltins =>
    exact .andThen (replaceExecStatement_rests h.live h.statement) (replaceCall_rests h.live h.call)
  | optionalBuiltins => exact replaceCall_rests h.live h.call
  | exceptionNames => exact replaceName_rests h.live h.reference
  | constantFolding => exact absurd rfl hvisitor

theorem Anonymous.foldlM_rests (h : Anonymous t id n) : ∀ {visitors : List Visitor}, .constantFolding ∉ visitors →
    Rests s t (visitors.foldlM (fun current visitor => visitor.enter current) id) id false
  | [], _ => .ret
  | visitor :: visitors, hnot => by
    rw [List.foldlM_cons]
    exact .andThen (h.enter_rests visitor fun e => hnot (by simp [e])) (h.foldlM_rests fun hmem => hnot (by simp [hmem]))

theorem visitors_of_folding {o : Options} (h : o.constantFolding = true) :
    ∃ early, .constantFolding ∉ early ∧ o.visitors = early ++ [.constantFolding] := by
  refine ⟨.criticalBuiltins :: ((if o.builtinReplacement then [.optionalBuiltins] else []) ++
    (if o.exceptionNameReplacement then [.exceptionNames] else [])), ?_, by simp [Options.visitors, h]⟩
  cases o.builtinReplacement <;> cases o.exceptionNameReplacement <;> decide

/-- The visitors before folding do nothing to such a node. -/
theorem Anonymous.enterNode_eq_ok (h : Anonymous w.tree id n) (hfolding : s.options.constantFolding = true)
    (hrun : enterNode id s w = .ok id' w') : ∃ w₁, w₁.tree = w.tree ∧ w₁.changes = w.changes ∧
      w₁.trace.abortive = w.trace.abortive ∧ foldOperation id s w₁ = .ok id' w' := by
  obtain ⟨early, hearly, hvisitors⟩ := visitors_of_folding hfolding
  rw [enterNode, reads_bind_of_ok settings_ok, hvisitors, List.foldlM_append] at hrun
  obtain ⟨current, w₁, hearliest, hlast⟩ := reads_bind_eq_ok_iff.1 hrun
  obtain ⟨rfl, htree, hchanges, habort⟩ := (h.foldlM_rests hearly).eq_of_ok hearliest
  rw [List.foldlM_cons] at hlast
  obtain ⟨folded, w₂, hfold, hret⟩ := reads_bind_eq_ok_iff.1 hlast
  cases hret
  exact ⟨w₁, htree, hchanges, by simpa using habort, hfold⟩

theorem foldOperation_rests_of_none (hn : t.get? id = some n) (hkind : foldHandler? n.kind = none) :
    Rests s t (foldOperation id) id false := by
  rw [foldOperation_eq]
  refine .andThen (.ask (kind_ok hn)) ?_
  rw [hkind]
  exact .ret

/-! ## Nested operations -/

/-- A node `str(…str("")…)` with a given number of operations. -/
inductive Spine (t : Tree) : Nat → NodeId → Prop where
  | constant {id : NodeId} {n : Node} (hn : t.get? id = some n) (hkind : n.kind = .constantRef)
    (hpayload : n.payload = .constant (.str "")) : Spine t 0 id
  | operation {k : Nat} {id child : NodeId} {n : Node} (hn : t.get? id = some n) (hkind : n.kind = .builtinStr)
    (hslots : n.slots = [.filled child]) (hchild : Spine t k child) : Spine t (k + 1) id

theorem foldHandler?_str : foldHandler? .builtinStr = some (foldByKey "str") := rfl

theorem foldByKey_str : foldByKey "str" id = foldBuiltin id Signature.str := rfl

theorem evaluate_str (version : Version) :
    PureBuiltin.str.evaluate { values := [some (.str "")] } version = .ok (.str "") := by
  cases version <;> rfl

theorem constant?_of_spine {k : Nat} (h : Spine t (k + 1) id) (hc : t.Consistent) : t.constant? id = none := by
  cases h with
  | operation hn hkind hslots hchild =>
    cases hv : t.constant? id with
    | none => rfl
    | some value =>
      obtain ⟨n', hn', hkind', -⟩ := hc.constantRef hv
      cases hn.symm.trans hn'
      cases hkind.symm.trans hkind'

theorem constantArguments_str {child : NodeId} (hn : t.get? id = some n) (hkind : n.kind = .builtinStr)
    (hslots : n.slots = [.filled child]) : t.constantArguments id =
      .ok ((t.constant? child).map fun value => { values := [some value] }) := by
  have hchild : t.child id "value" = .ok (some child) := by
    have hslot : t.slot id "value" = .ok (.filled child) := slot_of_get? hn (by rw [hkind, hslots]; rfl)
    rw [Tree.child, hslot]
    rfl
  have hoperands : t.constantOperands id NodeKind.builtinStr.slots = .ok ((t.constant? child).map fun value => [some value]) := by
    simp only [NodeKind.slots, NodeKind.optional, constantOperands, hchild, ok_bind]
    cases t.constant? child <;> rfl
  rw [constantArguments, kind_ok hn, ok_bind, hkind, if_neg (by decide), hoperands]
  cases t.constant? child <;> rfl

/-- An operation over another one is left alone. -/
theorem Spine.fold_rests {k : Nat} (h : Spine t (k + 2) id) (hc : t.Consistent) :
    Rests s t (foldOperation id) id false := by
  cases h with
  | operation hn hkind hslots hchild =>
    rw [foldOperation_eq]
    refine .andThen (.ask (kind_ok hn)) ?_
    rw [hkind, foldHandler?_str]
    have hnone := constantArguments_str hn hkind hslots
    rw [constant?_of_spine hchild hc] at hnone
    have hfold : Rests s t (foldByKey "str" id) (.unchanged id) false := by
      rw [foldByKey_str]
      exact .andThen (.ask hnone) .ret
    exact hfold.bind .ret

/-- A node below `parent` has given way to another, with one change announced; everything around it is as before. -/
structure Digested (w w' : Workspace) (id id' parent : NodeId) : Prop where
  consistent : w'.tree.Consistent
  changes : w'.changes.size = w.changes.size + 1
  root : w'.tree.root = w.tree.root
  fresh : id' = id ∨ w.tree.get? id' = none
  placed : w'.tree.IsParent id' parent
  outside : ∀ {x n}, w.tree.get? x = some n → ¬ w.tree.Below x id →
    w'.tree.get? x = some { n with slots := if x = parent then n.slots.map (Slot.renamed id id') else n.slots }
  kinds : ∀ {x n'}, w'.tree.get? x = some n' → n'.kind = .constantRef ∨ ∃ n, w.tree.get? x = some n ∧ n'.kind = n.kind

theorem Digested.congr {w₀ w₁ : Workspace} (h : Digested w₀ w₁ id id' parent) (htree : w₀.tree = w.tree)
    (hchanges : w₀.changes = w.changes) (htree' : w'.tree = w₁.tree) (hchanges' : w'.changes = w₁.changes) :
    Digested w w' id id' parent := by
  obtain ⟨hc, hsize, hroot, hfresh, hplaced, houtside, hkinds⟩ := h
  rw [htree] at hroot hfresh houtside hkinds
  rw [hchanges] at hsize
  exact ⟨htree' ▸ hc, hchanges' ▸ hsize, htree' ▸ hroot, hfresh, htree' ▸ hplaced, htree' ▸ houtside, htree' ▸ hkinds⟩

/-- What happens to the child of a node happens below it. -/
theorem Digested.lift {child child' : NodeId} (h : Digested w w' child child' id) (hc : w.tree.Consistent)
    (hchild : w.tree.IsParent child id) (hid : w.tree.IsParent id parent) : Digested w w' id id parent := by
  have habove : ¬ w.tree.Below id child := fun hb => hc.acyclic child (.head' hchild hb)
  obtain ⟨n, hn, hp⟩ := parent?_eq_some_iff.1 hid
  refine ⟨h.consistent, h.changes, h.root, .inl rfl, parent?_eq_some_iff.2 ⟨_, h.outside hn habove, hp⟩,
    fun {x m} hm hx => ?_, h.kinds⟩
  have hx' : ¬ w.tree.Below x child := fun hb => hx (hb.tail hchild)
  have hne : x ≠ id := fun e => hx (e ▸ .refl)
  have hsame : m.slots.map (Slot.renamed id id) = m.slots :=
    (List.map_congr_left fun slot _ => slot.renamed_self id).trans (List.map_id' _)
  rw [h.outside hm hx', if_neg hne, hsame, ite_self]

/-- The node of a constant that operations are folded to. -/
def emptyText (source : SourceRef) : Node :=
  { kind := .constantRef, source, payload := .constant (.str ""), slots := [] }

theorem Spine.fold_eq_ok (h : Spine w.tree 1 id) (hc : w.tree.Consistent)
    (hrun : foldOperation id s w = .ok id' w') : ∃ source t₁ parent, GainsLeaf w.tree t₁ id' ∧
      t₁.get? id' = some (emptyText source) ∧ Replaced t₁ w'.tree id id' parent ∧
      w'.changes.size = w.changes.size + 1 := by
  cases h with
  | @operation _ _ child n hn hkind hslots hchild =>
    cases hchild with
    | @constant _ m hm hmkind hpayload =>
      have hconstant : w.tree.constant? child = some (.str "") := by simp [constant?, hm, Node.constant?, hpayload]
      have hargs := constantArguments_str hn hkind hslots
      rw [hconstant, Option.map_some] at hargs
      rw [foldOperation_eq, reads_bind_of_ok (ask_ok (kind_ok hn)), hkind, foldHandler?_str] at hrun
      obtain ⟨computed, w₁, hfold, happly⟩ := reads_bind_eq_ok_iff.1 hrun
      rw [foldByKey_str] at hfold
      change (ask (·.constantArguments id) >>= _) s w = _ at hfold
      rw [reads_bind_of_ok (ask_ok hargs)] at hfold
      dsimp only at hfold
      rw [reads_bind_of_ok (ask_ok (source_ok hn)), reads_bind_of_ok version_ok, evaluate_str] at hfold
      obtain ⟨leaf, w₂, hmake, hret⟩ := reads_bind_eq_ok_iff.1 hfold
      cases hret
      obtain ⟨t₁, hnew, rfl⟩ := onTree_eq_ok_iff.1 hmake
      obtain ⟨hmakes, rfl, ht₁⟩ := newNode_eq_ok hnew
      have hid' : id' = w.tree.nextId := node_of_applyComputed rfl happly
      have hleaf : GainsLeaf w.tree t₁ id' := ⟨_, _, _, hmakes, hid', ht₁⟩
      obtain ⟨-, tags, source, message, w₂, hreplace, rfl⟩ :=
        applyComputed_eq_ok happly (hid' ▸ (ne_nextId_of_get? hn).symm)
      obtain ⟨⟨parent, hreplaced⟩, hw₂⟩ := replaceNode_eq_ok (hleaf.consistent hc) hreplace
      refine ⟨n.source, t₁, parent, hleaf, by rw [ht₁, hid', get?_addNode_nextId]; rfl, hreplaced, ?_⟩
      rw [ChangeLog.size_add, hw₂]

/-- **An operation over the constant gives way to a new constant.** -/
theorem Spine.fold_bottom (h : Spine w.tree 1 id) (hc : w.tree.Consistent) (hparent : w.tree.IsParent id parent)
    (hrun : foldOperation id s w = .ok id' w') : Digested w w' id id' parent ∧ Spine w'.tree 0 id' := by
  obtain ⟨source, t₁, q, hleaf, hgained, hreplaced, hchanges⟩ := h.fold_eq_ok hc hrun
  obtain rfl : q = parent := (hleaf.isParent_iff.1 hreplaced.held).unique hparent
  have hapart : ¬ t₁.Below id' id := hleaf.not_below hparent
  have hnode := hreplaced.node hapart
  rw [hgained] at hnode
  refine ⟨⟨hreplaced.consistent, hchanges, hreplaced.root.trans hleaf.root, .inr hleaf.stale, hreplaced.placed hapart,
    fun {x m} hm hx => ?_, fun {x m'} hm' => ?_⟩, .constant hnode rfl rfl⟩
  · have hx' := hreplaced.node (mt hleaf.below_iff.1 hx)
    rw [hleaf.get? hm, Option.map_some, if_neg (hleaf.ne hm)] at hx'
    exact hx'
  · by_cases hx : t₁.Below x id
    · rw [hreplaced.gone hx] at hm'
      cases hm'
    · rw [hreplaced.node hx] at hm'
      obtain ⟨m, hm, rfl⟩ := Option.map_eq_some_iff.1 hm'
      by_cases hxid : x = id'
      · subst hxid
        cases hm.symm.trans hgained
        exact .inl rfl
      · exact .inr ⟨m, hleaf.get?_eq hxid ▸ hm, rfl⟩

/-! ## Walks down a chain -/

/-- A node with one child is walked by walking the child. -/
theorem visitChildren_single {visit : NodeId → ReplaceM Unit} {child : NodeId} {inSequence : Bool}
    (hparent : w.tree.IsParent child parent) (hgo : inSequence = true → w.trace.abortive = false)
    (hrun : visitChildren visit parent inSequence [child] s w = .ok () w') : visit child s w = .ok () w' := by
  rw [visitChildren, reads_bind_of_ok (show (get : ReplaceM Workspace) s w = .ok w w from rfl), if_neg,
    reads_bind_of_ok tree_ok, if_pos (show w.tree.parent? child = some parent from hparent)] at hrun
  · obtain ⟨_, w₁, hvisit, hrest⟩ := reads_bind_eq_ok_iff.1 hrun
    cases hrest
    exact hvisit
  · rw [Bool.and_eq_true]
    rintro ⟨hsequence, habort⟩
    rw [hgo hsequence] at habort
    cases habort

theorem compute_transparent (hn : w.tree.get? id = some n) (hkind : n.kind.isTransparent = true)
    (hrun : (computeNode id >>= applyComputed id) s w = .ok id' w') :
    id' = id ∧ w'.tree = w.tree ∧ w'.changes = w.changes := by
  have hrests : Rests s w.tree (computeNode id >>= applyComputed id) id (decide (n.kind = .raiseException) || false) := by
    refine (computeNode_rests hn fun hmem => ?_).bind .ret
    simp only [NodeKind.isTransparent, decide_eq_true_eq] at hkind
    exact hkind (List.mem_cons_of_mem _ hmem)
  obtain ⟨rfl, htree, hchanges, -⟩ := hrests.eq_of_ok hrun
  exact ⟨rfl, htree, hchanges⟩

theorem visitEntered_leaf (hn : w.tree.get? id = some n) (hkind : n.kind.isTransparent = true) (hid : id ≠ unit)
    (hchildren : n.children = []) {fuel : Nat} (hrun : visitEntered unit fuel id s w = .ok id' w') :
    id' = id ∧ w'.tree = w.tree ∧ w'.changes = w.changes := by
  have hfunction : n.kind ≠ .functionBody := fun e => by rw [e] at hkind; exact absurd hkind (by decide)
  rw [visitEntered, reads_bind_of_ok (ask_ok (node_of_get? hn)), if_neg (fun h => hfunction h.1), hchildren] at hrun
  obtain ⟨_, w₁, hnone, hrun⟩ := reads_bind_eq_ok_iff.1 hrun
  cases hnone
  rw [if_neg hid] at hrun
  exact compute_transparent hn hkind hrun

theorem visitEntered_single {child : NodeId} {fuel : Nat} (hc : w.tree.Consistent) (hn : w.tree.get? id = some n)
    (hkind : n.kind.isTransparent = true) (hid : id ≠ unit) (hchildren : n.children = [child])
    (hgo : n.kind = .statementsSequence → w.trace.abortive = false)
    (hkept : ∀ child' w₁, visit unit fuel child s w = .ok child' w₁ → Digested w w₁ child child' id)
    (hrun : visitEntered unit fuel id s w = .ok id' w') : id' = id ∧ ∃ child' w₁,
      visit unit fuel child s w = .ok child' w₁ ∧ w'.tree = w₁.tree ∧ w'.changes = w₁.changes := by
  have hfunction : n.kind ≠ .functionBody := fun e => by rw [e] at hkind; exact absurd hkind (by decide)
  have hparent : w.tree.IsParent child id := (hc.isParent_iff hn).2 (by simp [hchildren])
  rw [visitEntered, reads_bind_of_ok (ask_ok (node_of_get? hn)), if_neg (fun h => hfunction h.1), hchildren] at hrun
  obtain ⟨_, w₁, hbelow, hrun⟩ := reads_bind_eq_ok_iff.1 hrun
  obtain ⟨child', hvisit⟩ := discard_eq_ok (visitChildren_single hparent (by simpa using hgo) hbelow)
  rw [if_neg hid] at hrun
  have habove : ¬ w.tree.Below id child := fun hb => hc.acyclic child (.head' hparent hb)
  obtain ⟨rfl, htree, hchanges⟩ := compute_transparent ((hkept child' w₁ hvisit).outside hn habove) hkind hrun
  exact ⟨rfl, child', w₁, hvisit, htree, hchanges⟩

theorem Spine.leaf (h : Spine t 0 id) (hc : t.Consistent) :
    ∃ n, t.get? id = some n ∧ n.kind = .constantRef ∧ n.children = [] := by
  cases h with
  | constant hn hkind hpayload => exact hc.constantRef (show t.constant? id = some (.str "") by simp [constant?, hn, Node.constant?, hpayload])

theorem Spine.anonymous {k : Nat} (h : Spine t (k + 1) id) : ∃ n, Anonymous t id n ∧ n.kind = .builtinStr := by
  cases h with
  | operation hn hkind hslots hchild =>
    exact ⟨_, ⟨hn, by simp [hkind], by simp [hkind], fun e => nomatch hkind.symm.trans e⟩, hkind⟩

/-- A node that is left alone and has one child: what happens to the child is all that happens. -/
theorem Anonymous.visit_through {child : NodeId} {fuel : Nat} {Q : Tree → NodeId → Prop} (h : Anonymous w.tree id n)
    (hfolding : s.options.constantFolding = true) (hc : w.tree.Consistent)
    (hrests : Rests s w.tree (foldOperation id) id false) (hkind : n.kind.isTransparent = true) (hid : id ≠ unit)
    (hchildren : n.children = [child]) (hgo : n.kind = .statementsSequence → w.trace.abortive = false)
    (hparent : w.tree.IsParent id parent)
    (hbelow : ∀ {w₁ child' w₂}, w₁.tree = w.tree → w₁.trace.abortive = w.trace.abortive → w₁.tree.IsParent child id →
      visit unit fuel child s w₁ = .ok child' w₂ → Digested w₁ w₂ child child' id ∧ Q w₂.tree child')
    (hrun : visit unit (fuel + 1) id s w = .ok id' w') : id' = id ∧ ∃ child', Digested w w' id id parent ∧
      Q w'.tree child' ∧ w'.tree.get? id = some { n with slots := n.slots.map (Slot.renamed child child') } := by
  rw [visit_succ, if_neg hid] at hrun
  obtain ⟨current, w₁, henter, hvisit⟩ := reads_bind_eq_ok_iff.1 hrun
  obtain ⟨w₀, htree₀, hchanges₀, habort₀, hfold⟩ := h.enterNode_eq_ok hfolding henter
  rw [← htree₀] at hrests
  obtain ⟨rfl, htree₁, hchanges₁, habort₁⟩ := hrests.eq_of_ok hfold
  replace htree₁ := htree₁.trans htree₀
  rw [Bool.or_false, habort₀] at habort₁
  rw [← htree₁] at hc hparent
  have hn := htree₁ ▸ h.live
  have hheld : w₁.tree.IsParent child current := (hc.isParent_iff hn).2 (by simp [hchildren])
  obtain ⟨rfl, child', w₂, hchild, htree', hchanges'⟩ := visitEntered_single hc hn hkind hid hchildren
    (fun e => habort₁.trans (hgo e)) (fun _ _ hv => (hbelow htree₁ habort₁ hheld hv).1) hvisit
  obtain ⟨hdigested, hQ⟩ := hbelow htree₁ habort₁ hheld hchild
  have hnode := hdigested.outside hn fun hb => hc.acyclic child (.head' hheld hb)
  rw [if_pos rfl] at hnode
  exact ⟨rfl, child', (hdigested.lift hc hheld hparent).congr htree₁ (hchanges₁.trans hchanges₀) htree' hchanges',
    htree' ▸ hQ, htree' ▸ hnode⟩

/-- **A walk folds the innermost operation only**, because the others are looked at before their operands. -/
theorem visit_spine (hfolding : s.options.constantFolding = true) : ∀ {k fuel : Nat} {id parent : NodeId} {w : Workspace}
    {id' : NodeId} {w' : Workspace}, w.tree.Consistent → Spine w.tree (k + 1) id → w.tree.kind unit = .ok .module →
    w.tree.IsParent id parent → visit unit fuel id s w = .ok id' w' →
    Digested w w' id id' parent ∧ Spine w'.tree k id'
  | _, 0, _, _, _, _, _, _, _, _, _, hrun => nomatch hrun
  | k, fuel + 1, id, parent, w, id', w', hc, hspine, hunit, hparent, hrun => by
    obtain ⟨n, hanonymous, hkind⟩ := hspine.anonymous
    have hother {x : NodeId} {m : Node} (hm : w.tree.get? x = some m) (hmkind : m.kind ≠ .module) : x ≠ unit := by
      rintro rfl
      exact hmkind (Except.ok.inj ((kind_ok hm).symm.trans hunit))
    have hid : id ≠ unit := hother hanonymous.live (by simp [hkind])
    cases k with
    | zero =>
      rw [visit_succ, if_neg hid] at hrun
      obtain ⟨current, w₁, henter, hbelow⟩ := reads_bind_eq_ok_iff.1 hrun
      obtain ⟨w₀, htree₀, hchanges₀, -, hfold⟩ := hanonymous.enterNode_eq_ok hfolding henter
      obtain ⟨hdigested, hbottom⟩ := Spine.fold_bottom (htree₀ ▸ hspine) (htree₀ ▸ hc) (htree₀ ▸ hparent) hfold
      have hcurrent : current ≠ unit := by
        rcases hdigested.fresh with rfl | hstale
        · exact hid
        · rintro rfl
          obtain ⟨m, hm, -⟩ := kind_eq_ok_iff.1 hunit
          rw [htree₀, hm] at hstale
          cases hstale
      obtain ⟨m, hm, hmkind, hchildren⟩ := hbottom.leaf hdigested.consistent
      obtain ⟨rfl, htree', hchanges'⟩ := visitEntered_leaf hm (by rw [hmkind]; decide) hcurrent hchildren hbelow
      exact ⟨hdigested.congr htree₀ hchanges₀ htree' hchanges', htree' ▸ hbottom⟩
    | succ k =>
      have hrests : Rests s w.tree (foldOperation id) id false := hspine.fold_rests hc
      cases hspine with
      | @operation _ _ child n' hn' hkind' hslots hchild =>
        cases hanonymous.live.symm.trans hn'
        obtain ⟨rfl, child', hdigested, hspine', hnode⟩ := hanonymous.visit_through (Q := fun t => Spine t k) hfolding hc hrests
          (by rw [hkind]; decide) hid (show n.children = [child] by rw [Node.children, hslots]; rfl) (fun e => nomatch hkind.symm.trans e) hparent
          (fun htree _ hheld hvisit => visit_spine hfolding (htree ▸ hc) (htree ▸ hchild) (htree ▸ hunit) hheld hvisit) hrun
        rw [hslots] at hnode
        exact ⟨hdigested, .operation hnode hkind (by simp [Slot.renamed, Slot.filled]) hspine'⟩

/-! ## Towers -/

/-- A statement made of nested operations. -/
def SpineStatement (t : Tree) (k : Nat) (id : NodeId) : Prop :=
  ∃ n top, t.get? id = some n ∧ n.kind = .statementExpressionOnly ∧ n.slots = [.filled top] ∧ Spine t k top

/-- A sequence of one such statement. -/
def SpineSequence (t : Tree) (k : Nat) (id : NodeId) : Prop :=
  ∃ n statement, t.get? id = some n ∧ n.kind = .statementsSequence ∧ n.slots = [.many [statement]] ∧
    SpineStatement t k statement

/-- A module whose body is such a sequence, without any functions. -/
structure Tower (t : Tree) (k : Nat) : Prop where
  module : ∃ root n sequence, t.root = some root ∧ t.get? root = some n ∧ n.kind = .module ∧
    n.slots = [.filled sequence] ∧ SpineSequence t k sequence
  simple : ∀ {x n}, t.get? x = some n → n.kind ≠ .functionBody

variable {k fuel : Nat}

theorem Spine.not_call (h : Spine t k id) : ∃ n, t.get? id = some n ∧ n.kind ≠ .functionCall := by
  cases h with
  | constant hn hkind hpayload => exact ⟨_, hn, by simp [hkind]⟩
  | operation hn hkind hslots hchild => exact ⟨_, hn, by simp [hkind]⟩

theorem SpineStatement.visit_eq_ok (h : SpineStatement w.tree (k + 1) id) (hc : w.tree.Consistent)
    (hfolding : s.options.constantFolding = true) (hunit : w.tree.kind unit = .ok .module)
    (hparent : w.tree.IsParent id parent) (hrun : visit unit fuel id s w = .ok id' w') :
    Digested w w' id id' parent ∧ id' = id ∧ SpineStatement w'.tree k id := by
  obtain ⟨n, top, hn, hkind, hslots, hspine⟩ := h
  obtain ⟨m, hm, hcall⟩ := hspine.not_call
  have hchild : w.tree.child id "expression" = .ok (some top) := by
    have hslot : w.tree.slot id "expression" = .ok (.filled top) := slot_of_get? hn (by rw [hkind, hslots]; rfl)
    rw [Tree.child, hslot]
    rfl
  have hanonymous : Anonymous w.tree id n :=
    ⟨hn, by simp [hkind], by simp [hkind], fun _ => ⟨top, m, hchild, hm, hcall⟩⟩
  have hid : id ≠ unit := by
    rintro rfl
    cases hkind.symm.trans (Except.ok.inj ((kind_ok hn).symm.trans hunit))
  cases fuel with
  | zero => cases hrun
  | succ fuel =>
    obtain ⟨rfl, top', hdigested, hspine', hnode⟩ := hanonymous.visit_through (Q := fun t => Spine t k) hfolding hc
      (foldOperation_rests_of_none hn (by rw [hkind]; rfl)) (by rw [hkind]; decide) hid
      (show n.children = [top] by rw [Node.children, hslots]; rfl) (by simp [hkind]) hparent
      (fun htree _ hheld hvisit => visit_spine hfolding (htree ▸ hc) (htree ▸ hspine) (htree ▸ hunit) hheld hvisit) hrun
    rw [hslots] at hnode
    exact ⟨hdigested, rfl, _, top', hnode, hkind, by simp [Slot.renamed, Slot.filled], hspine'⟩

theorem SpineSequence.visit_eq_ok (h : SpineSequence w.tree (k + 1) id) (hc : w.tree.Consistent)
    (hfolding : s.options.constantFolding = true) (hunit : w.tree.kind unit = .ok .module)
    (habort : w.trace.abortive = false) (hparent : w.tree.IsParent id parent)
    (hrun : visit unit fuel id s w = .ok id' w') :
    Digested w w' id id' parent ∧ id' = id ∧ SpineSequence w'.tree k id := by
  obtain ⟨n, statement, hn, hkind, hslots, hstatement⟩ := h
  have hanonymous : Anonymous w.tree id n :=
    ⟨hn, by simp [hkind], by simp [hkind], fun e => nomatch hkind.symm.trans e⟩
  have hid : id ≠ unit := by
    rintro rfl
    exact nomatch hkind.symm.trans (Except.ok.inj ((kind_ok hn).symm.trans hunit))
  cases fuel with
  | zero => cases hrun
  | succ fuel =>
    obtain ⟨rfl, statement', hdigested, ⟨rfl, hstatement'⟩, hnode⟩ := hanonymous.visit_through
      (Q := fun t child => child = statement ∧ SpineStatement t k statement) hfolding hc
      (foldOperation_rests_of_none hn (by rw [hkind]; rfl)) (by rw [hkind]; decide) hid
      (show n.children = [statement] by rw [Node.children, hslots]; rfl) (fun _ => habort) hparent
      (fun htree _ hheld hvisit =>
        SpineStatement.visit_eq_ok (htree ▸ hstatement) (htree ▸ hc) hfolding (htree ▸ hunit) hheld hvisit) hrun
    rw [hslots] at hnode
    exact ⟨hdigested, rfl, _, statement', hnode, hkind, by simp [Slot.renamed_self], hstatement'⟩

/-- **A walk of the module takes one level off the tower.** -/
theorem Tower.visit_eq_ok (h : Tower w.tree (k + 1)) (hc : w.tree.Consistent) (hroot : w.tree.root = some unit)
    (hfolding : s.options.constantFolding = true) (habort : w.trace.abortive = false)
    (hrun : visit unit fuel unit s w = .ok id' w') :
    Tower w'.tree k ∧ w'.changes.size = w.changes.size + 1 := by
  obtain ⟨⟨root, n, sequence, hroot', hn, hkind, hslots, hsequence⟩, hsimple⟩ := h
  obtain rfl : root = unit := Option.some.inj (hroot'.symm.trans hroot)
  have hchildren : n.children = [sequence] := by rw [Node.children, hslots]; rfl
  have hheld : w.tree.IsParent sequence root := (hc.isParent_iff hn).2 (by simp [hchildren])
  cases fuel with
  | zero => cases hrun
  | succ fuel =>
    rw [visit_succ, if_pos rfl, visitEntered, reads_bind_of_ok (ask_ok (node_of_get? hn)), if_neg (by simp), hchildren] at hrun
    obtain ⟨_, w₁, hbelow, hret⟩ := reads_bind_eq_ok_iff.1 hrun
    rw [if_pos rfl] at hret
    cases hret
    obtain ⟨sequence', hvisit⟩ := discard_eq_ok (visitChildren_single hheld (fun _ => habort) hbelow)
    obtain ⟨hdigested, rfl, hsequence'⟩ :=
      hsequence.visit_eq_ok hc hfolding (kind_eq_ok_iff.2 ⟨n, hn, hkind⟩) habort hheld hvisit
    have hnode := hdigested.outside hn fun hb => hc.acyclic sequence' (.head' hheld hb)
    rw [if_pos rfl, hslots] at hnode
    refine ⟨⟨⟨_, _, sequence', hdigested.root.trans hroot, hnode, hkind, by simp [Slot.renamed_self], hsequence'⟩,
      fun {x m'} hm' => ?_⟩, hdigested.changes⟩
    rcases hdigested.kinds hm' with hconstant | ⟨m, hm, hsame⟩
    · simp [hconstant]
    · exact hsame ▸ hsimple hm

theorem Spine.congr {t' : Tree} (hget : ∀ x, t'.get? x = t.get? x) (h : Spine t k id) : Spine t' k id := by
  induction h with
  | constant hn hkind hpayload => exact .constant ((hget _).trans hn) hkind hpayload
  | operation hn hkind hslots _ ih => exact .operation ((hget _).trans hn) hkind hslots ih

theorem Tower.congr {t' : Tree} (hget : ∀ x, t'.get? x = t.get? x) (hroot : t'.root = t.root) (h : Tower t k) :
    Tower t' k := by
  obtain ⟨⟨root, n, sequence, hroot', hn, hkind, hslots, m, statement, hm, hmkind, hmslots, l, top, hl, hlkind, hlslots,
    hspine⟩, hsimple⟩ := h
  exact ⟨⟨root, n, sequence, hroot.trans hroot', (hget _).trans hn, hkind, hslots, m, statement, (hget _).trans hm, hmkind,
    hmslots, l, top, (hget _).trans hl, hlkind, hlslots, hspine.congr hget⟩, fun hx => hsimple ((hget _).symm.trans hx)⟩

/-- A tree without functions has one unit. -/
theorem units_of_simple {root : NodeId} (hc : t.Consistent) (hroot : t.root = some root)
    (hsimple : ∀ {x n}, t.get? x = some n → n.kind ≠ .functionBody) : t.units = .ok [root] := by
  obtain ⟨n, hn, -⟩ := hc.root hroot
  obtain ⟨ids, hwalk, hmem⟩ := hc.walk_ok hn
  have hbelow := filterM_eq_ok (l := ids) (f := fun id => do return id ≠ root && (← t.kind id) = .functionBody)
    (g := fun _ => false) fun id hid => by
      obtain ⟨m, hm⟩ := hc.live_of_reachable ⟨root, hroot, (hmem id).1 hid⟩
      simp [kind_ok hm, hsimple hm]
  rw [Tree.units, hroot]
  dsimp only
  rw [hwalk, ok_bind, hbelow]
  simp

theorem Tower.runPass_eq_ok {r r' : Run} (h : Tower r.tree (k + 1)) (hbuilt : r.tree.Built)
    (hfolding : s.options.constantFolding = true) (hrun : RunM.runPass s r = .ok () r') :
    Tower r'.tree k ∧ r'.report.changes.size = r.report.changes.size + 1 := by
  obtain ⟨root, count, t, units, hroot, hdecide, hbuilt', hunits, -, hwalk⟩ := Specializer.runPass_eq_ok hbuilt hrun
  obtain ⟨rebindings, count', -, hdecide', -⟩ := hbuilt.annotateReadOnly_ok hroot
  cases hdecide.symm.trans hdecide'
  have htower : Tower (r.tree.decided (r.tree.isReadOnly root rebindings) r.tree.bindings.size) (k + 1) :=
    Tower.congr (t := r.tree) (fun _ => rfl) rfl h
  cases hunits.symm.trans (units_of_simple hbuilt'.consistent hroot htower.simple)
  obtain ⟨_, r₁, hunit, hret⟩ := reads_bind_eq_ok_iff.1 hwalk
  cases hret
  rcases runUnit_eq_ok hunit with ⟨hnot, -⟩ | ⟨trace, w, habort, hvisit, rfl⟩
  · have hreach := hbuilt'.consistent.isReachable_iff.2 (show Reachable _ root from ⟨root, hroot, .refl⟩)
    cases hnot.symm.trans hreach
  · rw [visitUnit, reads_bind_of_ok tree_ok] at hvisit
    obtain ⟨id', w₁, hwalked, hret⟩ := reads_bind_eq_ok_iff.1 hvisit
    cases hret
    exact htower.visit_eq_ok hbuilt'.consistent hroot hfolding habort hwalked

end ReplaceM

/-! ## The limit -/

section Limit

variable {located : ModuleName → Prop} {s : Settings} {kind : NodeKind} {budget : Nat} {r : Run}

/-- **A tower with as many levels as passes are allowed is too high.** -/
theorem ReplaceM.Tower.runPasses_eq_error (hknows : Plan.Knows located s) (hplaced : ¬ s.Misplaced located)
    (hfolding : s.options.constantFolding = true) : ∀ {left k : Nat} {r : Run}, left ≤ k → Tower r.tree k →
    Running located kind budget r → ∃ r', RunM.runPasses left s r = .error (passLimitError s.options) r'
  | 0, _, r, _, _, _ => ⟨r, rfl⟩
  | left + 1, 0, _, hle, _, _ => absurd hle (Nat.not_succ_le_zero left)
  | left + 1, k + 1, r, hle, htower, hrunning => by
    have hpass := hrunning.runPass_ensures hknows
    unfold Ensures at hpass
    cases hrun : RunM.runPass s r with
    | error e r₁ =>
      rw [hrun] at hpass
      exact absurd hpass hplaced
    | ok _ r₁ =>
      rw [hrun] at hpass
      obtain ⟨credit, horderly, -⟩ := hrunning.paid
      obtain ⟨htower', hchanges⟩ := htower.runPass_eq_ok horderly.built hfolding hrun
      rw [runPasses_of_ok hrun, if_neg (by omega)]
      exact runPasses_eq_error hknows hplaced hfolding (Nat.le_of_succ_le_succ hle) htower'
        ⟨hpass.1.root, hpass.1.paid⟩

/-- Passes end before they run out if there are more of them than changes that may be announced. -/
theorem Running.runPasses_eq_ok (hknows : Plan.Knows located s) (hplaced : ¬ s.Misplaced located) : ∀ {left : Nat}
    {r : Run}, budget < r.report.changes.size + left → Running located kind budget r →
    ∃ r', RunM.runPasses left s r = .ok () r' ∧ Running located kind budget r'
  | 0, r, hleft, h => by
    obtain ⟨credit, -, hpaid⟩ := h.paid
    omega
  | left + 1, r, hleft, h => by
    have hpass := h.runPass_ensures hknows
    unfold Ensures at hpass
    cases hrun : RunM.runPass s r with
    | error e r₁ =>
      rw [hrun] at hpass
      exact absurd hpass hplaced
    | ok _ r₁ =>
      rw [hrun] at hpass
      have hgrows := hpass.2
      rw [runPasses_of_ok hrun]
      split
      · exact ⟨_, rfl, hpass.1.root, hpass.1.paid⟩
      · next hchanged =>
        refine runPasses_eq_ok hknows hplaced ?_ ⟨hpass.1.root, hpass.1.paid⟩
        show budget < r₁.report.changes.size + left
        omega

end Limit

theorem optimizeModule_of_error {s : Settings} {t : Tree} {e : CompileError} {run : Run}
    (h : RunM.runPasses s.options.maxPasses s { tree := t } = .error e run) : optimizeModule s t = .error e run := by
  have hread : (read : RunM Settings) s { tree := t } = .ok s { tree := t } := rfl
  unfold optimizeModule RunM.optimize
  rw [reads_bind_of_ok hread, reads_bind_of_error h]

theorem Tree.WellFormed.running {t : Tree} (h : t.WellFormed) (hsoft : t.HasNoHardImport) (locator : Locator) :
    Running (fun module => (locator.locate module none 0).2.isFound = true) .module (7 * t.liveCount) { tree := t } := by
  obtain ⟨root, hroot, hkind⟩ := h.module
  obtain ⟨n, hn, hkind⟩ := kind_eq_ok_iff.1 hkind
  refine ⟨⟨root, n, hroot, hn, hkind⟩, _, h.toProper.orderly fun id spec hid hspec => absurd hspec (hsoft id spec hid), ?_⟩
  rw [weight_const, card_handles]
  simp [ChangeLog.size]

/-- **A limit that is not higher than the tower is hit.** -/
theorem Tree.WellFormed.optimizeModule_eq_error {t : Tree} {k : Nat} (h : t.WellFormed) (hsoft : t.HasNoHardImport)
    (options : Options) {locator : Locator} (hlocator : locator.Supplied) (hfolding : options.constantFolding = true)
    (htower : ReplaceM.Tower t k) (hlimit : options.maxPasses ≤ k) :
    ∃ run, optimizeModule ⟨options, locator⟩ t = .error (passLimitError options) run := by
  obtain ⟨run, hrun⟩ := ReplaceM.Tower.runPasses_eq_error (s := ⟨options, locator⟩) (r := { tree := t })
    (knows_of_supplied options hlocator) (fun ⟨module, hfound, hnot⟩ => hnot hfound) hfolding hlimit htower
    (h.running hsoft locator)
  exact ⟨run, optimizeModule_of_error hrun⟩

/-- **A limit of more than seven passes for each node is never hit.** On a well-formed tree without hard imports the
optimizer ends with a well-formed tree. -/
theorem optimizeModule_within_limit (options : Options) {locator : Locator} (hlocator : locator.Supplied) {t : Tree}
    (h : t.WellFormed) (hsoft : t.HasNoHardImport) (hlimit : 7 * t.liveCount < options.maxPasses) :
    ∃ report run, optimizeModule ⟨options, locator⟩ t = .ok report run ∧ run.tree.WellFormed := by
  have hplaced : ¬ Settings.Misplaced ⟨options, locator⟩ fun module => (locator.locate module none 0).2.isFound = true :=
    fun ⟨module, hfound, hnot⟩ => hnot hfound
  obtain ⟨r, hrun, hend⟩ := (h.running hsoft locator).runPasses_eq_ok (knows_of_supplied options hlocator) hplaced
    (show _ < ({ tree := t } : Run).report.changes.size + options.maxPasses by simpa [ChangeLog.size] using hlimit)
  obtain ⟨credit, horderly, -⟩ := hend.paid
  obtain ⟨root, n, hroot, hn, hkind⟩ := hend.root
  have hproper := horderly.proper
  exact ⟨r.report, r, optimizeModule_eq_ok.2 ⟨hrun, hproper.valid, rfl⟩, hproper, root, hroot,
    Tree.kind_eq_ok_iff.2 ⟨n, hn, hkind⟩⟩

theorem optimizeModule_within_limit_keywordCall : ∃ report run,
    optimizeModule ⟨{}, .standard .empty .python3 []⟩ Tree.keywordCall = .ok report run ∧ run.tree.WellFormed :=
  optimizeModule_within_limit {} (.standard .empty .python3 []) Tree.keywordCall_wellFormed
    Tree.keywordCall_hasNoHardImport (by decide +kernel)

/-! ## A high tower -/

/-- The module `str(str(…""…))` with sixty-four calls. -/
def Tree.highTower : Tree :=
  .applyAll {} ([
    .newNode .module default (.scope "m") [.one none],
    .newNode .constantRef default (.constant (.str "")) []] ++
    (List.range 64).map (fun i => .newNode .builtinStr default .none [.filled ⟨i + 1⟩]) ++ [
    .newNode .statementExpressionOnly default .none [.filled ⟨65⟩],
    .newNode .statementsSequence default .none [.many [⟨66⟩]],
    .setBody ⟨0⟩ ⟨67⟩,
    .setRoot ⟨0⟩])

namespace Tree

/-- What is known about the node behind a handle, as far as it can be compared. -/
def shapeAt (t : Tree) (i : Nat) : Option (NodeKind × List Slot) := (t.get? ⟨i⟩).map fun n => (n.kind, n.slots)

theorem shapeAt_eq_some {t : Tree} {i : Nat} {kind : NodeKind} {slots : List Slot} (h : t.shapeAt i = some (kind, slots)) :
    ∃ n, t.get? ⟨i⟩ = some n ∧ n.kind = kind ∧ n.slots = slots := by
  obtain ⟨n, hn, hshape⟩ := Option.map_eq_some_iff.1 h
  exact ⟨n, hn, congrArg Prod.fst hshape, congrArg Prod.snd hshape⟩

theorem highTower_built : highTower.Built := ⟨_, rfl⟩

/-- The kinds of the nodes of the tower. -/
def towerKinds : List NodeKind :=
  [.module, .constantRef, .builtinStr, .statementExpressionOnly, .statementsSequence]

/-- The tower as it stands in the arena. -/
theorem highTower_shapes : highTower.root = some ⟨0⟩ ∧ highTower.shapeAt 0 = some (.module, [.filled ⟨67⟩]) ∧
    highTower.shapeAt 67 = some (.statementsSequence, [.many [⟨66⟩]]) ∧
    highTower.shapeAt 66 = some (.statementExpressionOnly, [.filled ⟨65⟩]) ∧
    highTower.shapeAt 1 = some (.constantRef, []) ∧ (highTower.constant? ⟨1⟩).bind Constant.text? = some "" ∧
    (∀ i < 64, highTower.shapeAt (i + 2) = some (.builtinStr, [.filled ⟨i + 1⟩])) ∧ highTower.validate = .ok () ∧
    ∀ i < highTower.nodes.size, (highTower.get? ⟨i⟩).all (decide <| ·.kind ∈ towerKinds) := by
  decide +kernel

theorem highTower_kind {id : NodeId} {n : Node} (hn : highTower.get? id = some n) : n.kind ∈ towerKinds := by
  obtain ⟨-, -, -, -, -, -, -, -, hall⟩ := highTower_shapes
  have hid := hall id.index (lt_size_of_get? hn)
  rw [hn] at hid
  exact of_decide_eq_true hid

theorem highTower_wellFormed : highTower.WellFormed := by
  have hc := highTower_built.consistent
  obtain ⟨hroot, hmodule, -, -, -, -, -, hvalid, -⟩ := highTower_shapes
  refine ⟨⟨highTower_built, hvalid, fun id pairs hid hpairs => ?_, fun id v hid hkind _ => ?_⟩, ⟨0⟩, hroot, ?_⟩
  · obtain ⟨n, hn⟩ := hc.live_of_reachable (hc.isReachable_iff.1 hid)
    have hnone : ∀ kind ∈ towerKinds, kind.slotIndex? "pairs" = none := by decide
    obtain rfl : pairs = [] := by rw [hc.childrenIn_eq_ok hn hpairs, Node.inSlot, hnone n.kind (highTower_kind hn)]; rfl
    simp
  · obtain ⟨n, hn, hvar⟩ := kind_eq_ok_iff.1 hkind
    have hmem := highTower_kind hn
    rw [hvar] at hmem
    exact absurd hmem (by decide)
  · obtain ⟨n, hn, hkind, -⟩ := shapeAt_eq_some hmodule
    exact kind_eq_ok_iff.2 ⟨n, hn, hkind⟩

theorem highTower_hasNoHardImport : highTower.HasNoHardImport := by
  intro id spec _ hpayload
  obtain ⟨n, hn, hspec⟩ := bind_eq_ok_iff.1 hpayload
  rw [node_eq_ok_iff] at hn
  have hnone : ∀ kind ∈ towerKinds, kind.payloadForm ≠ .hardImport := by decide
  refine hnone n.kind (highTower_kind hn) ?_
  rw [← (highTower_built.consistent.conforms hn).payload, Except.ok.inj hspec]
  rfl

theorem highTower_spine : ∀ k ≤ 64, ReplaceM.Spine highTower k ⟨k + 1⟩
  | 0, _ => by
    obtain ⟨-, -, -, -, hbottom, hvalue, -⟩ := highTower_shapes
    obtain ⟨n, hn, hkind, -⟩ := shapeAt_eq_some hbottom
    refine .constant hn hkind ?_
    rw [constant?, hn, Option.bind_some, Node.constant?] at hvalue
    split at hvalue
    · next value hpayload =>
      cases value with
      | str text => rw [hpayload, Option.some.inj (show some text = some "" from hvalue)]
      | _ => cases hvalue
    · cases hvalue
  | k + 1, hk => by
    obtain ⟨-, -, -, -, -, -, hlevels, -⟩ := highTower_shapes
    obtain ⟨n, hn, hkind, hslots⟩ := shapeAt_eq_some (hlevels k hk)
    exact .operation hn hkind hslots (highTower_spine k (Nat.le_of_succ_le hk))

theorem highTower_tower : ReplaceM.Tower highTower 64 := by
  obtain ⟨hroot, hmodule, hsequence, hstatement, -⟩ := highTower_shapes
  obtain ⟨n, hn, hkind, hslots⟩ := shapeAt_eq_some hmodule
  obtain ⟨m, hm, hmkind, hmslots⟩ := shapeAt_eq_some hsequence
  obtain ⟨l, hl, hlkind, hlslots⟩ := shapeAt_eq_some hstatement
  refine ⟨⟨⟨0⟩, n, ⟨67⟩, hroot, hn, hkind, hslots, m, ⟨66⟩, hm, hmkind, hmslots, l, ⟨65⟩, hl, hlkind, hlslots,
    highTower_spine 64 (Nat.le_refl _)⟩, fun {x n} hn hfunction => ?_⟩
  have hmem := highTower_kind hn
  rw [hfunction] at hmem
  exact absurd hmem (by decide)

end Tree

/-- The default limit is hit by a well-formed program. -/
theorem highTower_exceedsLimit : Tree.highTower.WellFormed ∧ Tree.highTower.HasNoHardImport ∧ ∃ run,
    optimizeModule ⟨{}, .standard .empty .python3 []⟩ Tree.highTower =
      .error (.internal "optimization did not reach a fixed point after 64 passes") run := by
  refine ⟨Tree.highTower_wellFormed, Tree.highTower_hasNoHardImport, ?_⟩
  obtain ⟨run, hrun⟩ := Tree.highTower_wellFormed.optimizeModule_eq_error Tree.highTower_hasNoHardImport {}
    (.standard .empty .python3 []) rfl Tree.highTower_tower (Nat.le_refl 64)
  exact ⟨run, hrun⟩

end Specializer
