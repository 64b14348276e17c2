import Specializer.Proofs.Tree.Operation

/-!
# Refused operations

An operation on a tree checks before it writes. So an operation that is refused has changed nothing, whatever its
arguments were: `Refuses t x` says that the computation `x`, if it is refused in `t`, leaves `t` behind. The errors are
those of the checks (`Blameless`). None of them reports broken links: a node with a parent is found in the slots of its
parent, because the links of a built tree go both ways.
-/

namespace Specializer

/-- Whether an error reports links that do not fit together. -/
def TreeError.isCorruption : TreeError → Bool
  | .corruptedParent .. | .multipleParents _ => true
  | _ => false

/-! ## Checks that blame their arguments -/

/-- A check that never reports broken links. -/
def Blameless {α : Type} (check : Except TreeError α) : Prop := ∀ e, check = .error e → e.isCorruption = false

section Checks

variable {α β : Type} {t : Tree}

theorem blameless_ok (a : α) : Blameless (.ok a) := nofun

theorem blameless_error {e : TreeError} (h : e.isCorruption = false) : Blameless (.error e : Except TreeError α) := by
  rintro _ ⟨⟩
  exact h

theorem Blameless.bind {x : Except TreeError α} {f : α → Except TreeError β} (hx : Blameless x)
    (hf : ∀ a, Blameless (f a)) : Blameless (x >>= f) := by
  cases x with
  | ok a => exact hf a
  | error e => exact blameless_error (hx e rfl)

theorem blameless_node (id : NodeId) : Blameless (t.node id) := by
  intro e he
  obtain ⟨-, rfl⟩ := Tree.node_eq_error_iff.1 he
  rfl

theorem blameless_variableAt (id : VariableId) : Blameless (t.variableAt id) := by
  unfold Tree.variableAt
  split
  · exact blameless_ok _
  · exact blameless_error rfl

theorem blameless_ensureDetached (id : NodeId) : Blameless (t.ensureDetached id) := by
  refine (blameless_node id).bind fun n => ?_
  split
  · exact blameless_error rfl
  · exact blameless_ok _

theorem blameless_ensureAdoptable (ids : List NodeId) (seen : List NodeId) :
    Blameless (t.ensureAdoptable seen ids) := by
  induction ids generalizing seen with
  | nil => exact blameless_ok ()
  | cons id rest ih =>
    refine (blameless_ensureDetached id).bind fun _ => ?_
    split
    · exact blameless_error rfl
    · exact ih (id :: seen)

theorem blameless_checkForms (kind : NodeKind) (specs : List SlotSpec) (slots : List Slot) :
    Blameless (checkForms kind specs slots) := by
  fun_induction checkForms kind specs slots with
  | case1 spec specs content slots hfits ih => exact ih
  | case2 => exact blameless_error rfl
  | case3 => exact blameless_ok ()

theorem blameless_checkNewNode (kind : NodeKind) (payload : Payload) (slots : List Slot) :
    Blameless (t.checkNewNode kind payload slots) := by
  have hslots : Blameless (checkSlots kind slots) := by
    unfold checkSlots
    split
    · exact blameless_checkForms kind _ slots
    · exact blameless_error rfl
  refine hslots.bind fun _ => ?_
  by_cases hform : payload.form = kind.payloadForm
  · rw [if_pos hform]
    cases payload with
    | var id => exact (blameless_variableAt id).bind fun _ => blameless_ensureAdoptable _ []
    | _ => exact blameless_ensureAdoptable _ []
  · rw [if_neg hform]
    exact blameless_error rfl

theorem blameless_slot (id : NodeId) (name : String) : Blameless (t.slot id name) := by
  refine (blameless_node id).bind fun n => ?_
  split
  · exact blameless_ok _
  · exact blameless_error rfl

theorem blameless_child (id : NodeId) (name : String) : Blameless (t.child id name) := by
  refine (blameless_slot id name).bind fun content => ?_
  cases content with
  | one child => exact blameless_ok child
  | many children =>
    refine Blameless.bind ((blameless_node id).bind fun n => blameless_ok n.kind) fun kind => ?_
    exact blameless_error rfl

namespace Tree.Consistent

theorem blameless_walk (h : t.Consistent) (id : NodeId) : Blameless (t.walk id) := by
  cases hid : t.get? id with
  | some n =>
    obtain ⟨ids, hids, -⟩ := h.walk_ok hid
    exact hids ▸ blameless_ok ids
  | none =>
    rw [walk, walkUpTo, node_eq_error_iff.2 ⟨hid, rfl⟩]
    exact blameless_error rfl

theorem blameless_referenceCount (h : t.Consistent) (id : VariableId) : Blameless (t.referenceCount id) := by
  unfold referenceCount
  split
  · exact blameless_ok 0
  · next root _ => exact (h.blameless_walk root).bind fun ids => blameless_ok _

end Tree.Consistent

end Checks

/-! ## Operations that refuse -/

/-- If the computation is refused, the tree is as it was, and the reason is not in the tree's links. -/
def Refuses {α : Type} (t : Tree) (x : TreeM α) : Prop :=
  ∀ e t', x t = .error e t' → t' = t ∧ e.isCorruption = false

section Operations

variable {α β : Type} {t : Tree}

theorem refuses_of_ok {x : TreeM α} {a : α} {t' : Tree} (h : x t = .ok a t') : Refuses t x := by
  intro e t'' he
  cases h.symm.trans he

theorem refuses_throw {e : TreeError} (h : e.isCorruption = false) : Refuses t (throw e : TreeM α) := by
  rintro _ _ ⟨⟩
  exact ⟨rfl, h⟩

/-- Once the tree is written, an operation only has an answer to give. -/
theorem refuses_set (t₁ : Tree) (a : α) : Refuses t (do set t₁; return a : TreeM α) := refuses_of_ok (a := a) rfl

theorem refuses_get {f : Tree → TreeM α} (h : Refuses t (f t)) : Refuses t (get >>= f) := h

theorem refuses_check {c : Except TreeError β} {f : β → TreeM α} (hc : Blameless c)
    (hf : ∀ b, c = .ok b → Refuses t (f b)) : Refuses t (TreeM.ofExcept c >>= f) := by
  intro e t' he
  cases hcheck : c with
  | ok b =>
    rw [Tree.run_check_ok hcheck] at he
    exact hf b hcheck e t' he
  | error e' =>
    rw [Tree.run_check_error hcheck] at he
    cases he
    exact ⟨rfl, hc _ hcheck⟩

theorem refuses_query {question : Tree → Except TreeError β} {f : β → TreeM α} (hq : Blameless (question t))
    (hf : ∀ b, question t = .ok b → Refuses t (f b)) : Refuses t (TreeM.query question >>= f) :=
  refuses_check hq hf

theorem Refuses.map {x : TreeM α} (h : Refuses t x) (g : α → β) : Refuses t (g <$> x) := by
  intro e t' he
  cases hx : x t with
  | ok a t₁ => cases he.symm.trans (run_map_of_ok hx)
  | error e₁ t₁ =>
    cases he.symm.trans (run_map_of_error hx)
    exact h _ _ hx

theorem Refuses.discard {x : TreeM α} (h : Refuses t x) : Refuses t (Functor.discard x) := h.map _

theorem newNode_refuses (kind : NodeKind) (source : SourceRef) (payload : Payload) (slots : List Slot) :
    Refuses t (TreeM.newNode kind source payload slots) :=
  refuses_get (refuses_check (blameless_checkNewNode kind payload slots) fun _ _ => refuses_set _ _)

theorem setRoot_refuses (id : NodeId) : Refuses t (TreeM.setRoot id) :=
  refuses_get (refuses_check (blameless_ensureDetached id) fun _ _ => refuses_set _ _)

theorem replaceRoot_refuses (new : NodeId) : Refuses t (TreeM.replaceRoot new) := by
  refine refuses_get ?_
  cases hroot : t.root with
  | none => exact refuses_throw rfl
  | some old => exact refuses_check (blameless_ensureDetached new) fun _ _ => refuses_set _ _

theorem attach_refuses (parent : NodeId) (slot : String) (child : NodeId) :
    Refuses t (TreeM.attach parent slot child) := by
  refine refuses_get (refuses_check (blameless_ensureDetached child) fun _ _ => ?_)
  split
  · exact refuses_throw rfl
  · refine refuses_check (blameless_slot parent slot) fun content _ => ?_
    rcases content with (_ | existing) | children
    · exact refuses_check (blameless_node parent) fun n _ => refuses_of_ok rfl
    · exact refuses_throw rfl
    · exact refuses_check (blameless_node parent) fun n _ => refuses_of_ok rfl

theorem setCapabilities_refuses (id : NodeId) (capabilities : Capabilities) :
    Refuses t (TreeM.setCapabilities id capabilities) :=
  refuses_get (refuses_check (blameless_node id) fun _ _ => refuses_of_ok rfl)

theorem declareVariable_refuses (owner : NodeId) (name : String) (kind : VariableKind) :
    Refuses t (TreeM.declareVariable owner name kind) :=
  refuses_get (refuses_check (blameless_node owner) fun _ _ => refuses_set _ _)

theorem setReadOnly_refuses (id : VariableId) (readOnly : Bool) : Refuses t (TreeM.setReadOnly id readOnly) :=
  refuses_get (refuses_check (blameless_variableAt id) fun _ _ => refuses_of_ok rfl)

namespace Tree.Consistent

variable (h : t.Consistent)
include h

theorem detach_refuses (id : NodeId) : Refuses t (TreeM.detach id) := by
  cases hid : t.get? id with
  | none =>
    refine refuses_get (refuses_check (blameless_node id) fun n hn => ?_)
    rw [node_eq_ok_iff, hid] at hn
    cases hn
  | some m =>
    cases hp : m.parent with
    | some parent =>
      -- the parent holds the node, so the search in its slots succeeds
      have hplace : t.IsParent id parent := parent?_eq_some_iff.2 ⟨m, hid, hp⟩
      obtain ⟨n, hn, -⟩ := h.parent_live hplace
      obtain ⟨t', hrun, -⟩ := h.detach_ok hn hplace
      exact refuses_of_ok hrun
    | none =>
      refine refuses_get (refuses_check (blameless_node id) fun n hn => ?_)
      obtain rfl : m = n := Option.some.inj (hid.symm.trans (node_eq_ok_iff.1 hn))
      simp only [hp]
      split
      · exact refuses_of_ok rfl
      · exact refuses_of_ok rfl

theorem detachSlot_refuses (id : NodeId) (slot : String) : Refuses t (TreeM.detachSlot id slot) := by
  refine refuses_query (blameless_child id slot) fun child? _ => ?_
  cases child? with
  | none => exact refuses_of_ok rfl
  | some child =>
    simp only [← map_eq_pure_bind]
    exact Refuses.map (h.detach_refuses child) some

theorem replaceWith_refuses (old new : NodeId) : Refuses t (TreeM.replaceWith old new) := by
  by_cases hgood : (∃ parent, t.IsParent old parent) ∧ t.Loose new ∧ ¬ t.StrictlyBelow old new
  · obtain ⟨⟨parent, hplace⟩, hloose, hnot⟩ := hgood
    obtain ⟨n, hn, -⟩ := h.parent_live hplace
    obtain ⟨t', hrun, -⟩ := h.replaceWith_ok hn hplace hloose hnot
    exact refuses_of_ok hrun
  · refine refuses_get (refuses_check (blameless_node old) fun m hm => ?_)
    cases hp : m.parent with
    | none => exact refuses_throw rfl
    | some parent =>
      refine refuses_check (blameless_ensureDetached new) fun _ hdetached => ?_
      split
      · exact refuses_throw rfl
      · next hnot =>
        rw [h.isAncestor_iff] at hnot
        have hplace : t.IsParent old parent := parent?_eq_some_iff.2 ⟨m, node_eq_ok_iff.1 hm, hp⟩
        exact absurd ⟨⟨parent, hplace⟩, ensureDetached_eq_ok_iff.1 hdetached, hnot⟩ hgood

theorem finalize_refuses (id : NodeId) : Refuses t (TreeM.finalize id) := by
  refine refuses_get ?_
  split
  · exact refuses_throw rfl
  · exact refuses_check (h.blameless_walk id) fun ids _ => refuses_of_ok rfl

theorem reconsiderVariable_refuses (id : VariableId) : Refuses t (TreeM.reconsiderVariable id) :=
  refuses_get (refuses_check (blameless_variableAt id) fun _ _ =>
    refuses_check (h.blameless_referenceCount id) fun _ _ => refuses_set _ _)

theorem refuses (op : Operation) : Refuses t op.run := by
  cases op with
  | newNode | makeConstant | makeVariableRef | makeBuiltinRef | makeExceptionRef | makeRaise | makeSideEffects
  | makeBuiltin | makeCall | makeKeyValue | makeAttributeLookup | makeStatements | makeExpressionStatement
  | makeAssignment | makeRelease | makeScope =>
    exact Refuses.discard (newNode_refuses _ _ _ _)
  | setRoot id => exact Refuses.discard (setRoot_refuses id)
  | replaceWith old new => exact h.replaceWith_refuses old new
  | replaceRoot new => exact Refuses.discard (replaceRoot_refuses new)
  | detach id => exact Refuses.discard (h.detach_refuses id)
  | detachSlot id slot => exact Refuses.discard (h.detachSlot_refuses id slot)
  | attach parent slot child => exact attach_refuses parent slot child
  | setBody scope body => exact attach_refuses scope "body" body
  | finalize id => exact h.finalize_refuses id
  | setCapabilities id capabilities => exact setCapabilities_refuses id capabilities
  | declareVariable owner name kind => exact Refuses.discard (declareVariable_refuses owner name kind)
  | setReadOnly id readOnly => exact setReadOnly_refuses id readOnly
  | reconsiderVariable id => exact Refuses.discard (h.reconsiderVariable_refuses id)

end Tree.Consistent

end Operations

namespace Tree

/-- **An operation that is refused has changed nothing: every node and link, the variables, the root and the next handle
are as they were. The refusal is about the arguments, since a built tree has no broken links to report.** -/
theorem refused_unchanged {t t' : Tree} (ht : t.Built) {op : Operation} {e : TreeError} (h : op.run t = .error e t') :
    t' = t ∧ e.isCorruption = false :=
  ht.consistent.refuses op e t' h

/-- Operations that make a dictionary with one entry. -/
def oneEntry : List Operation :=
  [.makeConstant (.str "a") .internal, .makeConstant (.bool true) .internal, .makeKeyValue ⟨0⟩ ⟨1⟩ .internal,
    .makeBuiltin .builtinDict [.one none, .many [⟨2⟩]] .internal]

/-- A new node over the dictionary, which is free, and the pair, which is not: the dictionary stays free. -/
theorem refused_unchanged_oneEntry : (applyAll {} oneEntry).Built ∧
    ∃ t', (Operation.makeSideEffects [⟨3⟩] ⟨2⟩ .internal).run (applyAll {} oneEntry) =
        .error (.alreadyAttached ⟨2⟩) t' ∧
      t' = applyAll {} oneEntry := by
  have hbuilt : (applyAll {} oneEntry).Built := ⟨oneEntry, rfl⟩
  have hrun : (Operation.makeSideEffects [⟨3⟩] ⟨2⟩ .internal).run (applyAll {} oneEntry) =
      .error (.alreadyAttached ⟨2⟩) (applyAll {} oneEntry) := rfl
  exact ⟨hbuilt, _, hrun, (refused_unchanged hbuilt hrun).1⟩

end Tree

end Specializer
