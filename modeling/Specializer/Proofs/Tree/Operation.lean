import Specializer.Proofs.Tree.Update
import Specializer.Tree.Make

/-!
# Trees that are built by operations

`Operation` lists the ways a tree can be changed from outside, `Tree.apply` performs one of them, successful or refused,
and `Tree.applyAll` performs a sequence. What a single operation can do to a tree is said once, in `Tree.Effect`; from
it follow the two main statements about sequences:

* every tree that operations build from the empty one is consistent (`consistent_applyAll`);
* a handle whose node was torn down is never live again (`isLive_applyAll_of_stale`).
-/

namespace Specializer

/-- A change of a tree from outside, with arbitrary handles and names. -/
inductive Operation where
  | newNode (kind : NodeKind) (source : SourceRef) (payload : Payload) (slots : List Slot)
  | makeConstant (value : Constant) (source : SourceRef)
  | makeVariableRef (id : VariableId) (source : SourceRef)
  | makeBuiltinRef (name : String) (source : SourceRef)
  | makeExceptionRef (kind : ExceptionKind) (source : SourceRef)
  | makeRaise (raised : RaisedException) (source : SourceRef)
  | makeSideEffects (effects : List NodeId) (expression : NodeId) (source : SourceRef)
  | makeBuiltin (kind : NodeKind) (slots : List Slot) (source : SourceRef)
  | makeCall (called : NodeId) (positional pairs : List NodeId) (source : SourceRef)
  | makeKeyValue (key value : NodeId) (source : SourceRef)
  | makeAttributeLookup (expression : NodeId) (name : String) (source : SourceRef)
  | makeStatements (statements : List NodeId) (source : SourceRef)
  | makeExpressionStatement (expression : NodeId) (source : SourceRef)
  | makeAssignment (id : VariableId) (value : NodeId) (source : SourceRef)
  | makeRelease (id : VariableId) (source : SourceRef)
  | makeScope (kind : NodeKind) (name : String) (source : SourceRef)
  | setRoot (id : NodeId)
  | replaceWith (old new : NodeId)
  | replaceRoot (new : NodeId)
  | detach (id : NodeId)
  | detachSlot (id : NodeId) (slot : String)
  | attach (parent : NodeId) (slot : String) (child : NodeId)
  | setBody (scope body : NodeId)
  | finalize (id : NodeId)
  | setCapabilities (id : NodeId) (capabilities : Capabilities)
  | declareVariable (owner : NodeId) (name : String) (kind : VariableKind)
  | setReadOnly (id : VariableId) (readOnly : Bool)
  | reconsiderVariable (id : VariableId)

/-- Performs an operation and forgets what it returns. -/
def Operation.run : Operation → TreeM Unit
  | .newNode kind source payload slots => discard (TreeM.newNode kind source payload slots)
  | .makeConstant value source => discard (TreeM.makeConstant value source)
  | .makeVariableRef id source => discard (TreeM.makeVariableRef id source)
  | .makeBuiltinRef name source => discard (TreeM.makeBuiltinRef name source)
  | .makeExceptionRef kind source => discard (TreeM.makeExceptionRef kind source)
  | .makeRaise raised source => discard (TreeM.makeRaise raised source)
  | .makeSideEffects effects expression source => discard (TreeM.makeSideEffects effects expression source)
  | .makeBuiltin kind slots source => discard (TreeM.makeBuiltin kind slots source)
  | .makeCall called positional pairs source => discard (TreeM.makeCall called positional pairs source)
  | .makeKeyValue key value source => discard (TreeM.makeKeyValue key value source)
  | .makeAttributeLookup expression name source => discard (TreeM.makeAttributeLookup expression name source)
  | .makeStatements statements source => discard (TreeM.makeStatements statements source)
  | .makeExpressionStatement expression source => discard (TreeM.makeExpressionStatement expression source)
  | .makeAssignment id value source => discard (TreeM.makeAssignment id value source)
  | .makeRelease id source => discard (TreeM.makeRelease id source)
  | .makeScope kind name source => discard (TreeM.makeScope kind name source)
  | .setRoot id => discard (TreeM.setRoot id)
  | .replaceWith old new => TreeM.replaceWith old new
  | .replaceRoot new => discard (TreeM.replaceRoot new)
  | .detach id => discard (TreeM.detach id)
  | .detachSlot id slot => discard (TreeM.detachSlot id slot)
  | .attach parent slot child => TreeM.attach parent slot child
  | .setBody scope body => TreeM.setBody scope body
  | .finalize id => TreeM.finalize id
  | .setCapabilities id capabilities => TreeM.setCapabilities id capabilities
  | .declareVariable owner name kind => discard (TreeM.declareVariable owner name kind)
  | .setReadOnly id readOnly => TreeM.setReadOnly id readOnly
  | .reconsiderVariable id => discard (TreeM.reconsiderVariable id)

namespace Tree

/-- The tree a computation leaves behind, whether it succeeds or is refused. -/
def after {α : Type} (t : Tree) (action : TreeM α) : Tree :=
  match action t with
  | .ok _ t' | .error _ t' => t'

/-- The tree after an operation. -/
def apply (t : Tree) (op : Operation) : Tree := t.after op.run

/-- The tree after operations, one after the other. -/
def applyAll (t : Tree) (ops : List Operation) : Tree := ops.foldl apply t

/-- What an operation can do to a tree. -/
inductive Effect (t : Tree) : Tree → Prop where
  | none : Effect t t
  | made {kind source payload slots} (hm : t.Makes kind payload slots) : Effect t (t.addNode kind source payload slots)
  | rooted {root : Option NodeId} (hr : ∀ r, root = some r → ∃ n, t.get? r = some n ∧ n.parent = .none) :
    Effect t { t with root }
  | relinked {t' parent n slots added removed} (hr : Relinked t t' parent slots added removed)
    (he : Exchange t parent n slots added removed) : Effect t t'
  | torn {ids} (whole : ∀ c p, t.IsParent c p → (c ∈ ids ↔ p ∈ ids)) (hr : ∀ r, t.root = some r → r ∉ ids) :
    Effect t (t.erase ids)
  | noted (id : NodeId) (capabilities : Capabilities) :
    Effect t (t.modifyNode id fun n => { n with override := some capabilities })
  | bound {bindings : Array Variable} (hsize : t.bindings.size ≤ bindings.size) : Effect t { t with bindings }

namespace Effect

variable {t t' : Tree} {id : NodeId}

theorem consistent (e : Effect t t') (h : t.Consistent) : t'.Consistent := by
  cases e with
  | none => exact h
  | made hm => exact h.addNode hm
  | rooted hr => exact h.of_get?_eq (fun _ => rfl) hr (Nat.le_refl _)
  | relinked hr he => exact h.relinked hr he
  | torn whole hr => exact h.erase whole hr
  | noted id c => exact h.override id c
  | bound hsize => exact h.of_get?_eq (fun _ => rfl) (fun _ => h.root) hsize

theorem size_le (e : Effect t t') : t.nodes.size ≤ t'.nodes.size := by
  cases e with
  | none | rooted | bound => exact Nat.le_refl _
  | made hm => simp
  | relinked hr he => exact Nat.le_of_eq hr.size.symm
  | torn whole hr => simp
  | noted id c => exact Nat.le_of_eq (size_modifyNode t id _).symm

/-- A handle that was given out and is stale stays stale. -/
theorem stale (e : Effect t t') (hsize : id.index < t.nodes.size) (hid : t.get? id = Option.none) :
    t'.get? id = Option.none := by
  cases e with
  | none | rooted | bound => exact hid
  | made hm =>
    have hne : id ≠ t.nextId := fun heq => Nat.lt_irrefl _ (heq ▸ hsize)
    rw [get?_addNode_of_ne _ _ _ _ t hne, hid]
    simp
  | relinked hr he => rw [hr.get?, hid]; rfl
  | torn whole hr => rw [get?_erase, hid]; simp
  | noted other c => rw [get?_modifyNode, hid]; simp

end Effect

/-! ## The effect of each operation -/

section Effects

variable {t : Tree}

theorem after_of_ok {α : Type} {action : TreeM α} {a : α} {t' : Tree} (h : action t = .ok a t') :
    t.after action = t' := by
  rw [after, h]

theorem after_of_error {α : Type} {action : TreeM α} {e : TreeError} {t' : Tree} (h : action t = .error e t') :
    t.after action = t' := by
  rw [after, h]

theorem after_discard {α : Type} (action : TreeM α) : t.after (discard action) = t.after action := by
  cases h : action t with
  | ok a t' => exact (after_of_ok (run_map_of_ok h)).trans (after_of_ok h).symm
  | error e t' => exact (after_of_error (run_map_of_error h)).trans (after_of_error h).symm

theorem Effect.refused {α : Type} {action : TreeM α} {e : TreeError} (h : action t = .error e t) :
    Effect t (t.after action) := by
  rw [after_of_error h]
  exact .none

theorem newNode_effect (kind : NodeKind) (source : SourceRef) (payload : Payload) (slots : List Slot) :
    Effect t (t.after (TreeM.newNode kind source payload slots)) := by
  cases hcheck : t.checkNewNode kind payload slots with
  | ok u =>
    have hm := checkNewNode_eq_ok_iff.1 hcheck
    rw [after_of_ok (newNode_ok hm source)]
    exact .made hm
  | error e =>
    have hrun : TreeM.newNode kind source payload slots t = .error e t := by
      rw [TreeM.newNode, run_get_bind, run_check_error hcheck]
    exact .refused hrun

theorem setRoot_effect (id : NodeId) : Effect t (t.after (TreeM.setRoot id)) := by
  cases hcheck : t.ensureDetached id with
  | ok u =>
    have hrun : TreeM.setRoot id t = .ok t.root { t with root := some id } := by
      rw [TreeM.setRoot, run_get_bind, run_check_ok hcheck]
      rfl
    rw [after_of_ok hrun]
    refine .rooted fun r hr => ?_
    cases hr
    exact (ensureDetached_eq_ok_iff.1 hcheck).live
  | error e =>
    have hrun : TreeM.setRoot id t = .error e t := by rw [TreeM.setRoot, run_get_bind, run_check_error hcheck]
    exact .refused hrun

theorem replaceRoot_effect (new : NodeId) : Effect t (t.after (TreeM.replaceRoot new)) := by
  cases hroot : t.root with
  | none =>
    have hrun : TreeM.replaceRoot new t = .error .missingRoot t := by
      rw [TreeM.replaceRoot, run_get_bind, hroot]
      rfl
    exact .refused hrun
  | some old =>
    cases hcheck : t.ensureDetached new with
    | ok u =>
      have hrun : TreeM.replaceRoot new t = .ok old { t with root := some new } := by
        rw [TreeM.replaceRoot, run_get_bind, hroot]
        change (TreeM.ofExcept _ >>= _) t = _
        rw [run_check_ok hcheck]
        rfl
      rw [after_of_ok hrun]
      refine .rooted fun r hr => ?_
      cases hr
      exact (ensureDetached_eq_ok_iff.1 hcheck).live
    | error e =>
      have hrun : TreeM.replaceRoot new t = .error e t := by
        rw [TreeM.replaceRoot, run_get_bind, hroot]
        exact run_check_error hcheck _
      exact .refused hrun

/-- A lookup that fails ends an operation before anything was written. -/
theorem after_node_bind_stale {α : Type} {id : NodeId} (hid : t.get? id = none) (f : Node → TreeM α) :
    (TreeM.ofExcept (t.node id) >>= f) t = .error (.staleNode id) t :=
  run_check_error (node_eq_error_iff.2 ⟨hid, rfl⟩) f

theorem detach_effect (h : t.Consistent) (id : NodeId) : Effect t (t.after (TreeM.detach id)) := by
  cases hid : t.get? id with
  | none =>
    have hrun : TreeM.detach id t = .error (.staleNode id) t := by
      rw [TreeM.detach, run_get_bind, after_node_bind_stale hid]
    exact .refused hrun
  | some m =>
    cases hp : m.parent with
    | some parent =>
      have hpar : t.IsParent id parent := parent?_eq_some_iff.2 ⟨m, hid, hp⟩
      obtain ⟨n, hn, -⟩ := h.parent_live hpar
      obtain ⟨t', hrun, hr⟩ := h.detach_ok hn hpar
      rw [after_of_ok hrun]
      exact .relinked hr (exchange_without hn hpar)
    | none =>
      by_cases hroot : t.root = some id
      · have hrun : TreeM.detach id t = .ok id { t with root := none } := by
          rw [TreeM.detach, run_get_bind, run_check_ok (node_of_get? hid)]
          simp only [hp, if_pos hroot]
          rfl
        rw [after_of_ok hrun]
        exact .rooted (by simp)
      · rw [after_of_ok (detach_loose ⟨⟨m, hid, hp⟩, hroot⟩)]
        exact .none

theorem detachSlot_effect (h : t.Consistent) (id : NodeId) (slot : String) :
    Effect t (t.after (TreeM.detachSlot id slot)) := by
  cases hchild : t.child id slot with
  | error e =>
    have hrun : TreeM.detachSlot id slot t = .error e t := run_bind_of_error (run_query_error hchild)
    exact .refused hrun
  | ok child? =>
    cases child? with
    | none =>
      have hrun : TreeM.detachSlot id slot t = .ok none t := by
        rw [TreeM.detachSlot, run_bind_of_ok (run_query_ok hchild)]
        rfl
      rw [after_of_ok hrun]
      exact .none
    | some child =>
      have hafter : t.after (TreeM.detachSlot id slot) = t.after (TreeM.detach child) := by
        rw [after, detachSlot_of_child hchild, after]
        cases hd : TreeM.detach child t with
        | ok a t' => rw [run_map_of_ok hd]
        | error e t' => rw [run_map_of_error hd]
      rw [hafter]
      exact detach_effect h child

theorem replaceWith_effect (h : t.Consistent) (old new : NodeId) :
    Effect t (t.after (TreeM.replaceWith old new)) := by
  cases hold : t.get? old with
  | none =>
    have hrun : TreeM.replaceWith old new t = .error (.staleNode old) t := by
      rw [TreeM.replaceWith, run_get_bind, after_node_bind_stale hold]
    exact .refused hrun
  | some m =>
    cases hp : m.parent with
    | none =>
      have hrun : TreeM.replaceWith old new t = .error (.detachedReplacement old) t := by
        rw [TreeM.replaceWith, run_get_bind, run_check_ok (node_of_get? hold)]
        simp only [hp]
        rfl
      exact .refused hrun
    | some parent =>
      have hpar : t.IsParent old parent := parent?_eq_some_iff.2 ⟨m, hold, hp⟩
      obtain ⟨n, hn, -⟩ := h.parent_live hpar
      cases hcheck : t.ensureDetached new with
      | error e =>
        have hrun : TreeM.replaceWith old new t = .error e t := by
          rw [TreeM.replaceWith, run_get_bind, run_check_ok (node_of_get? hold)]
          simp only [hp]
          rw [run_check_error hcheck]
        exact .refused hrun
      | ok u =>
        have hloose := ensureDetached_eq_ok_iff.1 hcheck
        by_cases hanc : t.isAncestor new old = true
        · have hrun : TreeM.replaceWith old new t = .error (.alreadyAttached new) t := by
            rw [TreeM.replaceWith, run_get_bind, run_check_ok (node_of_get? hold)]
            simp only [hp]
            rw [run_check_ok hcheck, if_pos hanc]
            rfl
          exact .refused hrun
        · have hnot : ¬ t.StrictlyBelow old new := by rwa [h.isAncestor_iff] at hanc
          obtain ⟨t', hrun, hr⟩ := h.replaceWith_ok hn hpar hloose hnot
          rw [after_of_ok hrun]
          exact .relinked hr (h.exchange_renamed hn hpar hloose hnot)

theorem finalize_effect (h : t.Consistent) (id : NodeId) : Effect t (t.after (TreeM.finalize id)) := by
  by_cases hattached : t.isAttached id = true
  · have hrun : TreeM.finalize id t = .error (.stillAttached id) t := by
      rw [TreeM.finalize, run_get_bind, if_pos hattached]
      rfl
    exact .refused hrun
  · obtain ⟨hroot, hparent⟩ : t.root ≠ some id ∧ t.parent? id = none := by
      simpa [isAttached] using hattached
    cases hid : t.get? id with
    | none =>
      have hwalk : t.walk id = .error (.staleNode id) := by
        rw [walk, walkUpTo, node_eq_error_iff.2 ⟨hid, rfl⟩]
        rfl
      have hrun : TreeM.finalize id t = .error (.staleNode id) t := by
        rw [TreeM.finalize, run_get_bind, if_neg hattached]
        exact run_check_error hwalk _
      exact .refused hrun
    | some n =>
      have hp : n.parent = none := by rw [← parent?_of_get? hid, hparent]
      have hloose : t.Loose id := ⟨⟨n, hid, hp⟩, hroot⟩
      obtain ⟨ids, hmem, hrun⟩ := h.finalize_ok hloose
      rw [after_of_ok hrun]
      refine .torn (fun c p hcp => ?_) fun r hr hr' => ?_
      · rw [hmem, hmem]
        exact hloose.below_iff_of_isParent hcp
      · obtain rfl := h.eq_of_root_below hr ((hmem r).1 hr')
        exact hroot hr

theorem slot_eq_ok {id : NodeId} {name : String} {content : Slot} (hslot : t.slot id name = .ok content) :
    ∃ n index, t.get? id = some n ∧ n.kind.slotIndex? name = some index ∧ n.slots[index]? = some content := by
  obtain ⟨n, hn, hslot⟩ := bind_eq_ok_iff.1 hslot
  split at hslot
  · next content' hfound =>
    obtain ⟨index, hindex, hget⟩ := Option.bind_eq_some_iff.1 hfound
    cases hslot
    exact ⟨n, index, node_eq_ok_iff.1 hn, hindex, hget⟩
  · cases hslot

/-- Adding a node to one slot adds it to the children and changes nothing else. -/
theorem count_set_slot {slots : List Slot} {index : Nat} {content content' : Slot} {child : NodeId}
    (hget : slots[index]? = some content) (hids : content'.ids = content.ids ++ [child]) (c : NodeId) :
    ((slots.set index content').flatMap Slot.ids).count c =
      (slots.flatMap Slot.ids).count c + if c = child then 1 else 0 := by
  induction slots generalizing index with
  | nil => simp at hget
  | cons s rest ih =>
    cases index with
    | zero =>
      obtain rfl : s = content := by simpa using hget
      have hone : [child].count c = if c = child then 1 else 0 := by
        by_cases hc : c = child
        · simp [hc]
        · simp [hc, List.count_eq_zero]
      simp only [List.set_cons_zero, List.flatMap_cons, hids, List.count_append, hone]
      omega
    | succ index =>
      simp only [List.set_cons_succ, List.flatMap_cons, List.count_append, ih (by simpa using hget)]
      omega

/-- Filling an empty slot, or the end of a sequence, with a loose node is in order unless the node stands above. -/
theorem Consistent.exchange_added (h : t.Consistent) {parent child : NodeId} {n : Node} {index : Nat}
    {content content' : Slot} (hn : t.get? parent = some n) (hloose : t.Loose child)
    (hnot : ¬ t.Below parent child) (hget : n.slots[index]? = some content)
    (hids : content'.ids = content.ids ++ [child]) (hform : content'.isSequence = content.isSequence) :
    Exchange t parent n (n.slots.set index content') (some child) none := by
  have hfresh : child ∉ n.children := fun hmem => hloose.not_isParent ((h.isParent_iff hn).2 hmem)
  refine ⟨hn, ?_, ?_, nofun, fun c => ?_⟩
  · rw [List.map_set, hform]
    refine List.ext_getElem? fun i => ?_
    rw [List.getElem?_set]
    split
    · next hi =>
      subst hi
      obtain ⟨hlt, rfl⟩ := List.getElem?_eq_some_iff.1 hget
      simp [hlt]
    · rfl
  · rintro c ⟨⟩
    exact ⟨hloose, hnot⟩
  · rw [count_set_slot hget hids]
    change n.children.count c + _ = _
    by_cases hc : c = child
    · subst hc
      simp [List.count_eq_zero.2 hfresh]
    · simp [hc, Ne.symm hc]

theorem attach_effect (h : t.Consistent) (parent : NodeId) (slot : String) (child : NodeId) :
    Effect t (t.after (TreeM.attach parent slot child)) := by
  cases hcheck : t.ensureDetached child with
  | error e =>
    refine .refused (e := e) ?_
    rw [TreeM.attach, run_get_bind, run_check_error hcheck]
  | ok u =>
    have hloose := ensureDetached_eq_ok_iff.1 hcheck
    by_cases habove : child = parent ∨ t.isAncestor child parent = true
    · refine .refused (e := .alreadyAttached child) ?_
      rw [TreeM.attach, run_get_bind, run_check_ok hcheck, if_pos habove]
      rfl
    · have hnot : ¬ t.Below parent child := by
        intro hb
        rcases Relation.ReflTransGen.cases_head hb with rfl | ⟨q, hq, hrest⟩
        · exact habove (Or.inl rfl)
        · exact habove (Or.inr (h.isAncestor_iff.2 (.head' hq hrest)))
      cases hslot : t.slot parent slot with
      | error e =>
        refine .refused (e := e) ?_
        rw [TreeM.attach, run_get_bind, run_check_ok hcheck, if_neg habove]
        exact run_check_error hslot _
      | ok content =>
        obtain ⟨n, index, hn, hindex, hget⟩ := slot_eq_ok hslot
        -- the new content, unless the slot is taken
        have hfill (content' : Slot) (hids : content'.ids = content.ids ++ [child])
            (hform : content'.isSequence = content.isSequence)
            (hrun : TreeM.attach parent slot child t =
              .ok () ((t.setSlots parent (n.slots.set index content')).setParent child (some parent))) :
            Effect t (t.after (TreeM.attach parent slot child)) := by
          rw [after_of_ok hrun]
          exact .relinked (relinked_added _) (h.exchange_added hn hloose hnot hget hids hform)
        rcases content with (_ | existing) | children
        · refine hfill (Slot.filled child) rfl rfl ?_
          rw [TreeM.attach, run_get_bind, run_check_ok hcheck, if_neg habove]
          change (TreeM.ofExcept _ >>= _) t = _
          rw [run_check_ok hslot]
          simp only
          rw [run_check_ok (node_of_get? hn), hindex]
          rfl
        · refine .refused (e := .alreadyAttached existing) ?_
          rw [TreeM.attach, run_get_bind, run_check_ok hcheck, if_neg habove]
          change (TreeM.ofExcept _ >>= _) t = _
          rw [run_check_ok hslot]
          rfl
        · refine hfill (Slot.many (children ++ [child])) rfl rfl ?_
          rw [TreeM.attach, run_get_bind, run_check_ok hcheck, if_neg habove]
          change (TreeM.ofExcept _ >>= _) t = _
          rw [run_check_ok hslot]
          simp only
          rw [run_check_ok (node_of_get? hn), hindex]
          rfl

theorem setCapabilities_effect (id : NodeId) (capabilities : Capabilities) :
    Effect t (t.after (TreeM.setCapabilities id capabilities)) := by
  cases hid : t.get? id with
  | none =>
    refine .refused (e := .staleNode id) ?_
    rw [TreeM.setCapabilities, run_get_bind, after_node_bind_stale hid]
  | some n =>
    have hrun : TreeM.setCapabilities id capabilities t =
        .ok () (t.modifyNode id fun n => { n with override := some capabilities }) := by
      rw [TreeM.setCapabilities, run_get_bind, run_check_ok (node_of_get? hid)]
      rfl
    rw [after_of_ok hrun]
    exact .noted id capabilities

theorem declareVariable_effect (owner : NodeId) (name : String) (kind : VariableKind) :
    Effect t (t.after (TreeM.declareVariable owner name kind)) := by
  cases hid : t.get? owner with
  | none =>
    refine .refused (e := .staleNode owner) ?_
    rw [TreeM.declareVariable, run_get_bind, after_node_bind_stale hid]
  | some n =>
    have hrun : TreeM.declareVariable owner name kind t =
        .ok ⟨t.bindings.size⟩ { t with bindings := t.bindings.push { name, owner, kind } } := by
      rw [TreeM.declareVariable, run_get_bind, run_check_ok (node_of_get? hid)]
      rfl
    rw [after_of_ok hrun]
    exact .bound (by simp)

theorem setReadOnly_effect (id : VariableId) (readOnly : Bool) : Effect t (t.after (TreeM.setReadOnly id readOnly)) := by
  cases hv : t.variableAt id with
  | error e =>
    refine .refused (e := e) ?_
    rw [TreeM.setReadOnly, run_get_bind, run_check_error hv]
  | ok v =>
    have hrun : TreeM.setReadOnly id readOnly t =
        .ok () { t with bindings := t.bindings.setIfInBounds id.index { v with readOnly } } := by
      rw [TreeM.setReadOnly, run_get_bind, run_check_ok hv]
      rfl
    rw [after_of_ok hrun]
    exact .bound (by simp)

theorem reconsiderVariable_effect (id : VariableId) : Effect t (t.after (TreeM.reconsiderVariable id)) := by
  cases hv : t.variableAt id with
  | error e =>
    refine .refused (e := e) ?_
    rw [TreeM.reconsiderVariable, run_get_bind, run_check_error hv]
  | ok v =>
    cases hcount : t.referenceCount id with
    | error e =>
      refine .refused (e := e) ?_
      rw [TreeM.reconsiderVariable, run_get_bind, run_check_ok hv, run_check_error hcount]
    | ok count =>
      have hrun : TreeM.reconsiderVariable id t =
          .ok count { t with bindings := t.bindings.setIfInBounds id.index { v with usageCount := count } } := by
        rw [TreeM.reconsiderVariable, run_get_bind, run_check_ok hv, run_check_ok hcount]
        rfl
      rw [after_of_ok hrun]
      exact .bound (by simp)

end Effects

/-- Every operation does one of the things an operation can do. -/
theorem Consistent.apply_effect {t : Tree} (h : t.Consistent) (op : Operation) : Effect t (t.apply op) := by
  cases op with
  | newNode | makeConstant | makeVariableRef | makeBuiltinRef | makeExceptionRef | makeRaise | makeSideEffects
  | makeBuiltin | makeCall | makeKeyValue | makeAttributeLookup | makeStatements | makeExpressionStatement
  | makeAssignment | makeRelease | makeScope =>
    rw [apply, Operation.run, after_discard]
    exact newNode_effect ..
  | setRoot id =>
    rw [apply, Operation.run, after_discard]
    exact setRoot_effect id
  | replaceWith old new => exact replaceWith_effect h old new
  | replaceRoot new =>
    rw [apply, Operation.run, after_discard]
    exact replaceRoot_effect new
  | detach id =>
    rw [apply, Operation.run, after_discard]
    exact detach_effect h id
  | detachSlot id slot =>
    rw [apply, Operation.run, after_discard]
    exact detachSlot_effect h id slot
  | attach parent slot child => exact attach_effect h parent slot child
  | setBody scope body => exact attach_effect h scope "body" body
  | finalize id => exact finalize_effect h id
  | setCapabilities id capabilities => exact setCapabilities_effect id capabilities
  | declareVariable owner name kind =>
    rw [apply, Operation.run, after_discard]
    exact declareVariable_effect owner name kind
  | setReadOnly id readOnly => exact setReadOnly_effect id readOnly
  | reconsiderVariable id =>
    rw [apply, Operation.run, after_discard]
    exact reconsiderVariable_effect id

/-! ## Sequences of operations -/

section Sequences

variable {t : Tree} {id : NodeId}

theorem applyAll_append (t : Tree) (before after : List Operation) :
    t.applyAll (before ++ after) = (t.applyAll before).applyAll after :=
  List.foldl_append

theorem Consistent.applyAll (h : t.Consistent) (ops : List Operation) : (t.applyAll ops).Consistent := by
  induction ops generalizing t with
  | nil => exact h
  | cons op ops ih => exact ih ((h.apply_effect op).consistent h)

theorem Consistent.stale_applyAll (h : t.Consistent) (hsize : id.index < t.nodes.size) (hid : t.get? id = none)
    (ops : List Operation) : (t.applyAll ops).get? id = none := by
  induction ops generalizing t with
  | nil => exact hid
  | cons op ops ih =>
    have e := h.apply_effect op
    exact ih (e.consistent h) (Nat.lt_of_lt_of_le hsize e.size_le) (e.stale hsize hid)

theorem Consistent.size_le_applyAll (h : t.Consistent) (ops : List Operation) :
    t.nodes.size ≤ (t.applyAll ops).nodes.size := by
  induction ops generalizing t with
  | nil => exact Nat.le_refl _
  | cons op ops ih =>
    have e := h.apply_effect op
    exact Nat.le_trans e.size_le (ih (e.consistent h))

end Sequences

/-- The trees that operations build from the empty one. -/
def Built (t : Tree) : Prop := ∃ ops, t = applyAll {} ops

namespace Built

variable {t t' : Tree}

theorem consistent (h : t.Built) : t.Consistent := by
  obtain ⟨ops, rfl⟩ := h
  exact consistent_empty.applyAll ops

theorem apply (h : t.Built) (op : Operation) : (t.apply op).Built := by
  obtain ⟨ops, rfl⟩ := h
  exact ⟨ops ++ [op], by rw [applyAll_append]; rfl⟩

theorem of_run (h : t.Built) (op : Operation) (hrun : op.run t = .ok () t') : t'.Built := by
  have hafter : t.apply op = t' := after_of_ok hrun
  exact hafter ▸ h.apply op

theorem of_discard {α : Type} {action : TreeM α} {a : α} (h : t.Built) (op : Operation)
    (hop : op.run = discard action) (hrun : action t = .ok a t') : t'.Built := by
  have hunit : op.run t = .ok () t' := by
    rw [hop]
    exact run_map_of_ok hrun
  exact h.of_run op hunit

end Built

/-- **The invariant of the arena holds after every sequence of operations, successful or refused, and a handle that was
live and is live no more is never live again.** -/
theorem built_consistent (ops : List Operation) :
    (applyAll {} ops).Consistent ∧
      ∀ before middle rest id, ops = before ++ middle ++ rest → (applyAll {} before).isLive id = true →
        (applyAll {} (before ++ middle)).isLive id = false → (applyAll {} ops).isLive id = false := by
  refine ⟨consistent_empty.applyAll ops, ?_⟩
  rintro before middle rest id rfl hlive hstale
  have hbefore : (applyAll {} before).Consistent := consistent_empty.applyAll before
  have hmiddle : (applyAll {} (before ++ middle)).Consistent := consistent_empty.applyAll _
  obtain ⟨n, hn⟩ := isLive_iff.1 hlive
  have hsize : id.index < (applyAll {} (before ++ middle)).nodes.size := by
    rw [applyAll_append]
    exact Nat.lt_of_lt_of_le (lt_size_of_get? hn) (hbefore.size_le_applyAll middle)
  have hgone : (applyAll {} (before ++ middle)).get? id = none := by simpa [isLive] using hstale
  rw [applyAll_append, isLive, hmiddle.stale_applyAll hsize hgone rest]
  rfl

end Tree

end Specializer
