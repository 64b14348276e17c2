import Specializer.Proofs.Replacement.Settling
import Specializer.Proofs.Replacement.Surroundings

/-!
# Operations over constants

An operation over constants has its operands in slots, in the order of the parameters, and those of a dictionary beyond
the first one in entries (`Tree.IsOperation`). Folding reads them back as they were bound
(`IsOperation.constantArguments`), and puts the value or the exception that the builtin evaluates to in the place of the
operation. An operation whose evaluation is declined stays (`IsOperation.foldOperation_eq_ok`).
-/

namespace Specializer

theorem NodeKind.slotIndex?_getElem (kind : NodeKind) {i : Nat} (hi : i < kind.slots.length) :
    kind.slotIndex? kind.slots[i].name = some i := by
  refine List.findIdx?_eq_some_iff_getElem.2 ⟨hi, by simp, fun j hj => ?_⟩
  have hnodup := List.pairwise_iff_getElem.1 kind.nodup_slots j i (by simp; omega) (by simpa using hi) hj
  simpa using hnodup

/-- The leaf that an evaluation comes to, `none` if it is declined. -/
def Outcome.leaf? : Outcome → Option (NodeKind × Payload)
  | .ok value => some (.constantRef, .constant value)
  | .error (.raise raised) => some (.raiseException, .raise raised)
  | .error .decline => none

namespace Tree

variable {t t' : Tree} {id id' parent : NodeId} {n : Node} {name : String} {args : BoundArguments Constant}

/-! ## Constants and operations -/

/-- A node of a kind with a payload, about which nothing is known but what its kind says. -/
def Shows (t : Tree) (id : NodeId) (kind : NodeKind) (payload : Payload) : Prop :=
  ∃ n, t.get? id = some n ∧ n.kind = kind ∧ n.payload = payload ∧ n.override = none

/-- A constant, about which nothing is known but its value. -/
def IsConstant (t : Tree) (id : NodeId) (value : Constant) : Prop := t.Shows id .constantRef (.constant value)

/-- An expression that raises. -/
def IsRaise (t : Tree) (id : NodeId) (raised : RaisedException) : Prop := t.Shows id .raiseException (.raise raised)

/-- A keyword with a constant value: an argument of a call, or an entry of a dictionary. -/
def IsEntry (t : Tree) (id : NodeId) (entry : String × Constant) : Prop :=
  ∃ n key value, t.get? id = some n ∧ n.kind = .keyValuePair ∧ n.slots = [.filled key, .filled value] ∧
    t.constant? key = some (.str entry.1) ∧ t.IsConstant value entry.2

/-- A slot holds the argument of a parameter. -/
inductive Holds (t : Tree) : Slot → Option Constant → Prop where
  | empty : Holds t (.one none) none
  | filled {id : NodeId} {value : Constant} (h : t.IsConstant id value) : Holds t (.filled id) (some value)

/-- The slots of an operation hold bound arguments: one slot for each parameter, and for a dictionary the entries. -/
inductive Operands (t : Tree) : NodeKind → List Slot → BoundArguments Constant → Prop where
  | params {kind : NodeKind} {slots : List Slot} {values : List (Option Constant)} (hkind : kind ≠ .builtinDict)
    (h : List.Forall₂ t.Holds slots values) : Operands t kind slots { values }
  | dict {slot : Slot} {value : Option Constant} {entries : List NodeId} {starDict : List (String × Constant)}
    (h : t.Holds slot value) (hentries : List.Forall₂ t.IsEntry entries starDict) :
    Operands t .builtinDict [slot, .many entries] { values := [value], starDict }

/-- The operation of a builtin over constants. -/
def IsOperation (t : Tree) (id : NodeId) (name : String) (args : BoundArguments Constant) : Prop :=
  ∃ n, t.get? id = some n ∧ n.kind.builtinKey? = some name ∧ t.Operands n.kind n.slots args

theorem IsConstant.constant? {value : Constant} (h : t.IsConstant id value) : t.constant? id = some value := by
  obtain ⟨n, hn, -, hpayload, -⟩ := h
  simp [Tree.constant?, hn, Node.constant?, hpayload]

/-! ## Reading operands back -/

/-- Every slot is found under its name. -/
theorem Consistent.slots_by_name (hc : t.Consistent) (hn : t.get? id = some n) :
    List.Forall₂ (fun spec slot => t.slot id spec.name = .ok slot) n.kind.slots n.slots := by
  have hlength : n.kind.slots.length = n.slots.length := by
    simpa using (congrArg List.length (hc.conforms hn).forms).symm
  refine List.forall₂_iff_get.2 ⟨hlength, fun i hi hi' => slot_of_get? hn ?_⟩
  rw [List.get_eq_getElem, n.kind.slotIndex?_getElem hi]
  exact List.getElem?_eq_getElem hi'

theorem child_of_slot {c? : Option NodeId} (h : t.slot id name = .ok (.one c?)) : t.child id name = .ok c? := by
  rw [child, h]
  rfl

theorem childrenIn_of_slot {slot : Slot} (h : t.slot id name = .ok slot) : t.childrenIn id name = .ok slot.ids := by
  rw [childrenIn, h]
  rfl

theorem constantOperands_of_holds {specs : List SlotSpec} {slots : List Slot} {values : List (Option Constant)}
    (hslots : List.Forall₂ (fun spec slot => t.slot id spec.name = .ok slot) specs slots)
    (hvalues : List.Forall₂ t.Holds slots values) : t.constantOperands id specs = .ok (some values) := by
  induction hslots generalizing values with
  | nil =>
    cases hvalues
    rfl
  | cons hslot _ ih =>
    obtain _ | ⟨hvalue, hvalues⟩ := hvalues
    rw [constantOperands]
    cases hvalue with
    | empty =>
      rw [child_of_slot hslot, ok_bind, ih hvalues]
      rfl
    | filled h =>
      rw [child_of_slot hslot, ok_bind]
      simp only [h.constant?]
      rw [ih hvalues]
      rfl

theorem IsEntry.children {entry : String × Constant} (h : t.IsEntry id entry) : ∃ key value,
    t.child id "key" = .ok (some key) ∧ t.child id "value" = .ok (some value) ∧
      t.constant? key = some (.str entry.1) ∧ t.IsConstant value entry.2 := by
  obtain ⟨n, key, value, hn, hkind, hslots, hkey, hvalue⟩ := h
  refine ⟨key, value, child_of_slot (slot_of_get? hn ?_), child_of_slot (slot_of_get? hn ?_), hkey, hvalue⟩
  · rw [hkind, hslots]
    rfl
  · rw [hkind, hslots]
    rfl

theorem constantEntries_of_entries {entries : List (String × Constant)} {pairs : List NodeId}
    (h : List.Forall₂ t.IsEntry pairs entries) : t.constantEntries pairs = .ok (some entries) := by
  induction h with
  | nil => rfl
  | cons hentry _ ih =>
    obtain ⟨key, value, hkey, hvalue, hk, hv⟩ := hentry.children
    rw [constantEntries, hkey, ok_bind, hvalue, ok_bind]
    simp only [Option.bind_some, hk, hv.constant?]
    rw [ih]
    rfl

/-- **The operands of an operation are read back as they were bound.** -/
theorem IsOperation.constantArguments (h : t.IsOperation id name args) (hc : t.Consistent) :
    t.constantArguments id = .ok (some args) := by
  obtain ⟨n, hn, -, hoperands⟩ := h
  have hnamed := hc.slots_by_name hn
  rw [Tree.constantArguments, ReplaceM.kind_ok hn, ok_bind]
  generalize n.kind = kind at *
  generalize n.slots = slots at *
  cases hoperands with
  | params hkind hvalues =>
    rw [if_neg hkind, constantOperands_of_holds hnamed hvalues]
    rfl
  | dict hvalue hentries =>
    obtain _ | ⟨hslot, _ | ⟨hpairs, -⟩⟩ := hnamed
    have hpositional : t.constantOperands id [⟨"pos_arg", .optional⟩] = _ :=
      constantOperands_of_holds (.cons hslot .nil) (.cons hvalue .nil)
    have hchildren : t.childrenIn id "pairs" = _ := childrenIn_of_slot hpairs
    rw [if_pos rfl, hpositional, ok_bind]
    dsimp only
    rw [hchildren, ok_bind, Slot.ids, constantEntries_of_entries hentries]
    rfl

end Tree

namespace ReplaceM

open Specializer.Tree

variable {s : Settings} {t : Tree} {w w' : Workspace} {id id' : NodeId} {n : Node} {name : String} {S : Signature}
  {builtin : PureBuiltin} {args : BoundArguments Constant}

/-! ## Folding -/

/-- Folding evaluates an operation with the signature behind its key. -/
theorem foldHandler?_of_key {kind : NodeKind} (hkey : kind.builtinKey? = some name) (hS : Signature.ofKey? name = some S)
    (hevaluator : S.evaluator = some builtin) :
    foldHandler? kind = some (foldByKey name) ∨ kind = .builtinRange ∧ S = .range := by
  cases kind <;> cases hkey <;> cases hS <;> cases hevaluator <;> first | exact .inl rfl | exact .inr ⟨rfl, rfl⟩

/-- What folding offers for an operation over constants: a new leaf, or nothing if the evaluation is declined. -/
theorem foldBuiltin_eq_ok {computed : Computed} (hn : w.tree.get? id = some n) (hevaluator : S.evaluator = some builtin)
    (hargs : w.tree.constantArguments id = .ok (some args)) (hrun : foldBuiltin id S s w = .ok computed w') :
    match (builtin.evaluate args s.options.version).leaf? with
    | none => computed = .unchanged id ∧ w'.tree = w.tree
    | some (kind, payload) => computed.isChanged = true ∧ w.tree.Makes kind payload [] ∧
        computed.node = w.tree.nextId ∧ w'.tree = w.tree.addNode kind n.source payload [] := by
  rw [foldBuiltin, hevaluator] at hrun
  dsimp only at hrun
  rw [reads_bind_of_ok (ask_ok hargs)] at hrun
  dsimp only at hrun
  rw [reads_bind_of_ok (ask_ok (source_ok hn)), reads_bind_of_ok version_ok] at hrun
  cases houtcome : builtin.evaluate args s.options.version with
  | ok value =>
    simp only [houtcome] at hrun
    obtain ⟨leaf, w₁, hmake, hrun⟩ := reads_bind_eq_ok_iff.1 hrun
    cases hrun
    obtain ⟨hmakes, rfl, htree⟩ := newNode_eq_ok (onTree_eq_ok hmake)
    exact ⟨rfl, hmakes, rfl, htree⟩
  | error fault =>
    simp only [houtcome] at hrun
    cases fault with
    | raise raised =>
      obtain ⟨_, w₁, hexit, hrun⟩ := reads_bind_eq_ok_iff.1 hrun
      cases hexit
      obtain ⟨leaf, w₂, hmake, hrun⟩ := reads_bind_eq_ok_iff.1 hrun
      cases hrun
      obtain ⟨hmakes, rfl, htree⟩ := newNode_eq_ok (onTree_eq_ok hmake)
      exact ⟨rfl, hmakes, rfl, htree⟩
    | decline =>
      cases hrun
      exact ⟨rfl, rfl⟩

theorem takesPlace_of_applyComputed {computed : Computed} {kind : NodeKind} {payload : Payload} {source : SourceRef}
    {t : Tree} (hc : t.Consistent) (hn : t.get? id = some n) (hchanged : computed.isChanged = true)
    (hmakes : t.Makes kind payload []) (hnode : computed.node = t.nextId)
    (htree : w.tree = t.addNode kind source payload []) (hrun : applyComputed id computed s w = .ok id' w') :
    TakesPlace t w'.tree id id' ∧ w'.tree.Shows id' kind payload := by
  have hleaf : GainsLeaf t w.tree computed.node := ⟨kind, source, payload, hmakes, hnode, htree⟩
  have hc₁ := hleaf.consistent hc
  have hne : computed.node ≠ id := (hleaf.ne hn).symm
  obtain rfl := node_of_applyComputed hchanged hrun
  obtain ⟨-, tags, source', message, w₁, hreplace, rfl⟩ := applyComputed_eq_ok hrun hne
  obtain ⟨⟨parent, hr⟩, -⟩ := replaceNode_eq_ok hc₁ hreplace
  have hheld : t.IsParent id parent := hleaf.isParent_iff.1 hr.held
  have hapart : ¬ w.tree.Below computed.node id := hleaf.not_below hheld
  have hplace := hr.inPlaceOf hc₁ hapart
  refine ⟨⟨hr.consistent, hleaf.stale, hplace.parent.trans (hr.held.trans hheld.symm), fun {p m} hp hm => ?_⟩, ?_⟩
  · exact hplace.slots (hleaf.isParent_iff.2 hp) (hleaf.get? hm)
  · have hshown := hr.node hapart
    rw [htree, hnode, get?_addNode_nextId] at hshown
    exact ⟨_, hnode ▸ hshown, rfl, rfl, rfl⟩

theorem foldOperation_of_key (hn : w.tree.get? id = some n) (hkey : n.kind.builtinKey? = some name)
    (hS : Signature.ofKey? name = some S) (hevaluator : S.evaluator = some builtin)
    (hrun : foldOperation id s w = .ok id' w') : ∃ computed w₁ w₂, foldBuiltin id S s w = .ok computed w₁ ∧
      w₂.tree = w₁.tree ∧ applyComputed id computed s w₂ = .ok id' w' := by
  rw [foldOperation_eq, reads_bind_of_ok (ask_ok (kind_ok hn))] at hrun
  rcases foldHandler?_of_key hkey hS hevaluator with hhandler | ⟨hkind, rfl⟩
  · simp only [hhandler] at hrun
    obtain ⟨computed, w₁, hfold, happly⟩ := reads_bind_eq_ok_iff.1 hrun
    rw [foldByKey, hS] at hfold
    exact ⟨computed, w₁, w₁, hfold, rfl, happly⟩
  · have hhandler : foldHandler? n.kind = some computeNode := hkind ▸ rfl
    simp only [hhandler] at hrun
    obtain ⟨computed, w₂, hfold, happly⟩ := reads_bind_eq_ok_iff.1 hrun
    rw [computeNode_of_range hn hkind] at hfold
    obtain ⟨w₁, hfold, htree⟩ := computeRange_eq_ok hfold
    exact ⟨computed, w₁, w₂, hfold, htree, happly⟩

/-- **Folding an operation over constants evaluates the builtin.** -/
theorem foldOperation_eq_ok (hc : w.tree.Consistent) (hop : w.tree.IsOperation id name args)
    (hS : Signature.ofKey? name = some S) (hevaluator : S.evaluator = some builtin)
    (hrun : foldOperation id s w = .ok id' w') :
    match (builtin.evaluate args s.options.version).leaf? with
    | none => id' = id ∧ w'.tree = w.tree
    | some (kind, payload) => TakesPlace w.tree w'.tree id id' ∧ w'.tree.Shows id' kind payload := by
  have hargs := hop.constantArguments hc
  obtain ⟨n, hn, hkey, -⟩ := hop
  obtain ⟨computed, w₁, w₂, hfold, htree, happly⟩ := foldOperation_of_key hn hkey hS hevaluator hrun
  have hoffer := foldBuiltin_eq_ok hn hevaluator hargs hfold
  split at hoffer
  · obtain ⟨rfl, hsame⟩ := hoffer
    rw [applyComputed_unchanged rfl] at happly
    cases happly
    exact ⟨rfl, htree.trans hsame⟩
  · obtain ⟨hchanged, hmakes, hnode, hmade⟩ := hoffer
    exact takesPlace_of_applyComputed hc hn hchanged hmakes hnode (htree.trans hmade) happly

theorem computeRange_rests {source : SourceRef} (h : Rests s t (foldBuiltin id .range) (.unchanged id) false) :
    Rests s t (computeRange id source) (.unchanged id) false := by
  refine .andThen h ?_
  dsimp only
  rw [if_neg (by simp [Computed.isChanged, Computed.unchanged])]
  exact .andThen (.recordExit _ _) .ret

/-- An operation that is declined is left alone on the way up as well. -/
theorem compute_rests_of_declined (hc : t.Consistent) (hop : t.IsOperation id name args)
    (hS : Signature.ofKey? name = some S) (hevaluator : S.evaluator = some builtin)
    (hdeclined : (builtin.evaluate args s.options.version).leaf? = none) :
    Rests s t (computeNode id >>= applyComputed id) id false := by
  have hargs := hop.constantArguments hc
  obtain ⟨n, hn, hkey, -⟩ := hop
  have hoffer : ∃ aborts, Rests s t (computeNode id) (.unchanged id) aborts ∧ aborts = false := by
    by_cases hrange : n.kind = .builtinRange
    · rw [hrange] at hkey
      cases hkey
      cases hS
      cases hevaluator
      have hfold : Rests s t (foldBuiltin id .range) (.unchanged id) false := by
        refine .andThen (.ask hargs) (.andThen (.ask (source_ok hn)) (.andThen .version ?_))
        split
        · next value houtcome => simp [houtcome, Outcome.leaf?] at hdeclined
        · next raised houtcome => simp [houtcome, Outcome.leaf?] at hdeclined
        · exact .ret
      refine ⟨false, fun trace changes => ?_, rfl⟩
      rw [computeNode_of_range (w := ⟨t, trace, changes⟩) hn hrange]
      exact computeRange_rests hfold trace changes
    · refine ⟨_, computeNode_rests hn fun hmem => ?_, ?_⟩
      · simp only [List.mem_cons, List.not_mem_nil, or_false] at hmem
        rcases hmem with hkind | hkind | hkind | hkind
        · simp [hkind, NodeKind.builtinKey?] at hkey
        · exact hrange hkind
        · simp [hkind, NodeKind.builtinKey?] at hkey
        · simp [hkind, NodeKind.builtinKey?] at hkey
      · refine decide_eq_false fun hkind => ?_
        simp [hkind, NodeKind.builtinKey?] at hkey
  obtain ⟨_, hrests, rfl⟩ := hoffer
  exact hrests.bind .ret

end ReplaceM

end Specializer
