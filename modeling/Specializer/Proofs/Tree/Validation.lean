import Specializer.Proofs.Tree.Operation

/-!
# What validation finds

Validation looks for six kinds of faults. The operations prevent four of them, so in a tree they build it answers one
question only: is there a root, and does a node that hangs below it lack something?

* `Node.Lacks` says that a required slot of a node is empty, as a detached child leaves it. For a node that suits its
  kind this is the only fault its slots can have (`Node.Conforms.checkSlots_cases`).
* `Validates` is the loop of validation without a bound. The bound of `Tree.validateFrom` is never what ends it, on any
  tree: no node is checked twice (`validates_validateFrom`).
* In a consistent tree the loop stops early only at a node that lacks something (`Validates.lacking`).

The main statement is for every tree that operations build (`Built.validate_exact`).
-/

namespace Specializer

/-! ## Empty slots -/

/-- A required slot of the node is empty. -/
def Node.Lacks (n : Node) (slot : String) : Prop :=
  ∃ i : Nat, n.kind.slots[i]? = some ⟨slot, .required⟩ ∧ n.slots[i]? = some (.one none)

/-- Content of the right form suits a slot unless the slot is required and empty. -/
theorem Slot.fits_iff {content : Slot} {arity : Arity} (h : content.isSequence = (arity == .sequence)) :
    content.fits arity = true ↔ ¬ (arity = .required ∧ content = .one none) := by
  cases arity <;> rcases content with (_ | child) | children <;> simp_all [Slot.fits, Slot.isSequence]

theorem checkForms_cases (kind : NodeKind) : ∀ {specs : List SlotSpec} {slots : List Slot},
    slots.map Slot.isSequence = specs.map (·.arity == .sequence) →
      checkForms kind specs slots = .ok () ∧
        (∀ (i : Nat) (name : String), specs[i]? = some ⟨name, .required⟩ → slots[i]? ≠ some (.one none)) ∨
      ∃ (i : Nat) (name : String), specs[i]? = some ⟨name, .required⟩ ∧ slots[i]? = some (.one none) ∧
        checkForms kind specs slots = .error (.schemaMismatch kind name "a node" "nothing")
  | [], _, _ => Or.inl ⟨by simp [checkForms], by simp⟩
  | ⟨name, arity⟩ :: specs, [], h => by simp at h
  | ⟨name, arity⟩ :: specs, content :: slots, h => by
    obtain ⟨hhead, htail⟩ := List.cons.inj h
    by_cases hempty : arity = .required ∧ content = .one none
    · obtain ⟨rfl, rfl⟩ := hempty
      exact Or.inr ⟨0, name, rfl, rfl, by simp [checkForms, Slot.fits, Arity.describe, Slot.describe]⟩
    · have hskip : checkForms kind (⟨name, arity⟩ :: specs) (content :: slots) = checkForms kind specs slots := by
        rw [checkForms, if_pos ((Slot.fits_iff hhead).2 hempty)]
      rw [hskip]
      rcases checkForms_cases kind htail with ⟨hok, hfull⟩ | ⟨i, lacking, hspec, hnone, herror⟩
      · refine Or.inl ⟨hok, fun i name' hspec hnone => ?_⟩
        cases i with
        | zero =>
          rw [List.getElem?_cons_zero, Option.some.injEq] at hspec hnone
          cases hspec
          exact hempty ⟨rfl, hnone⟩
        | succ i => exact hfull i name' hspec hnone
      · exact Or.inr ⟨i + 1, lacking, hspec, hnone, herror⟩

/-- The slots of a node that suits its kind pass, or one of them is empty and the check names it. -/
theorem Node.Conforms.checkSlots_cases {t : Tree} {n : Node} (h : n.Conforms t) :
    checkSlots n.kind n.slots = .ok () ∧ (∀ slot, ¬ n.Lacks slot) ∨
      ∃ slot, n.Lacks slot ∧ checkSlots n.kind n.slots = .error (.schemaMismatch n.kind slot "a node" "nothing") := by
  have hlength : n.kind.slots.length = n.slots.length := by
    have := congrArg List.length h.forms
    simpa using this.symm
  rw [checkSlots, if_pos hlength]
  rcases checkForms_cases n.kind h.forms with ⟨hok, hfull⟩ | ⟨i, slot, hspec, hnone, herror⟩
  · exact Or.inl ⟨hok, fun slot ⟨i, hspec, hnone⟩ => hfull i slot hspec hnone⟩
  · exact Or.inr ⟨slot, ⟨i, hspec, hnone⟩, herror⟩

namespace Tree

variable {t : Tree} {id root : NodeId} {n : Node} {seen pending : List NodeId}

theorem Consistent.complete_iff (h : t.Consistent) (hid : t.get? id = some n) :
    t.Complete id ↔ ∀ slot, ¬ n.Lacks slot := by
  have hcheck : t.Complete id ↔ checkSlots n.kind n.slots = .ok () := by
    unfold Complete
    rw [hid]
    simp
  rw [hcheck]
  rcases (h.conforms hid).checkSlots_cases with ⟨hok, hfull⟩ | ⟨slot, hlacks, herror⟩
  · exact iff_of_true hok hfull
  · exact iff_of_false (by simp [herror]) fun hfull => hfull slot hlacks

/-! ## The loop without a bound -/

/-- One round of validation: checks a node that has not been seen and returns what is to be checked next. -/
def checkNext (t : Tree) (seen : List NodeId) (id : NodeId) : Except TreeError (List NodeId) := do
  if id ∈ seen then throw (.multipleParents id)
  let n ← t.node id
  checkSlots n.kind n.slots
  t.ensureLinked id n.children
  return n.children

/-- Rounds of validation lead from the seen and the pending nodes to the result: until nothing is pending, or until a
round refuses its node. -/
inductive Validates (t : Tree) : List NodeId → List NodeId → Except TreeError Unit → Prop where
  | done {seen : List NodeId} : Validates t seen [] (.ok ())
  | refused {seen pending : List NodeId} {id : NodeId} {e : TreeError} (hnext : t.checkNext seen id = .error e) :
    Validates t seen (id :: pending) (.error e)
  | next {seen pending children : List NodeId} {id : NodeId} {result : Except TreeError Unit}
    (hnext : t.checkNext seen id = .ok children)
    (rest : Validates t (id :: seen) (children.reverse ++ pending) result) : Validates t seen (id :: pending) result

theorem validateFrom_succ (t : Tree) (fuel : Nat) (seen : List NodeId) (id : NodeId) (pending : List NodeId) :
    t.validateFrom (fuel + 1) seen (id :: pending) =
      t.checkNext seen id >>= fun children => t.validateFrom fuel (id :: seen) (children.reverse ++ pending) := by
  rw [validateFrom, checkNext]
  split
  · rfl
  · cases hnode : t.node id with
    | error e => rfl
    | ok n =>
      simp only [ok_bind]
      cases hslots : checkSlots n.kind n.slots with
      | error e => rfl
      | ok =>
        simp only [ok_bind]
        cases hlinked : t.ensureLinked id n.children with
        | error e => rfl
        | ok => rfl

/-- A round that goes on has found a live node that was not seen, and leaves its children to be checked. -/
theorem checkNext_eq_ok {children : List NodeId} (h : t.checkNext seen id = .ok children) :
    id ∉ seen ∧ ∃ n, t.get? id = some n ∧ n.children = children := by
  unfold checkNext at h
  split at h
  · cases h
  · rename_i hnot
    obtain ⟨n, hnode, h⟩ := bind_eq_ok_iff.1 h
    obtain ⟨-, -, h⟩ := bind_eq_ok_iff.1 h
    obtain ⟨-, -, h⟩ := bind_eq_ok_iff.1 h
    exact ⟨hnot, n, node_eq_ok_iff.1 hnode, Except.ok.inj h⟩

/-- **The bound of validation is never reached.** Every round that goes on has seen one more live node, so on any tree
the bounded loop ends as the loop without a bound does. -/
theorem validates_validateFrom : ∀ {fuel : Nat} {seen : List NodeId} (pending : List NodeId), seen.Nodup →
    (∀ x ∈ seen, ∃ n, t.get? x = some n) → seen.length + fuel = t.nodes.size + 1 →
      t.Validates seen pending (t.validateFrom fuel seen pending)
  | fuel, seen, [], _, _, _ => by
    have hleft : t.validateFrom fuel seen [] = .ok () := by cases fuel <;> rfl
    exact hleft ▸ .done
  | 0, seen, id :: pending, hnodup, hlive, hlen => by
    have := length_le_size hnodup hlive
    omega
  | fuel + 1, seen, id :: pending, hnodup, hlive, hlen => by
    rw [validateFrom_succ]
    cases hnext : t.checkNext seen id with
    | error e => exact .refused hnext
    | ok children =>
      obtain ⟨hnot, n, hid, -⟩ := checkNext_eq_ok hnext
      refine .next hnext (validates_validateFrom _ (List.nodup_cons.2 ⟨hnot, hnodup⟩) ?_ ?_)
      · intro x hx
        rcases List.mem_cons.1 hx with rfl | hx
        · exact ⟨n, hid⟩
        · exact hlive x hx
      · rw [List.length_cons]
        omega

/-! ## The loop in consistent trees -/

/-- In a consistent tree a round refuses its node only because the node lacks something. -/
theorem Found.checkNext_cases (hf : t.Found root seen (id :: pending)) (h : t.Consistent) (hid : t.get? id = some n) :
    t.checkNext seen id = .ok n.children ∨
      ∃ slot, n.Lacks slot ∧ t.checkNext seen id = .error (.schemaMismatch n.kind slot "a node" "nothing") := by
  have hlinked : t.ensureLinked id n.children = .ok () := ensureLinked_ok fun c hc => h.held hid hc
  rw [checkNext, if_neg hf.notMem_seen, node_of_get? hid]
  rcases (h.conforms hid).checkSlots_cases with ⟨hok, -⟩ | ⟨slot, hlacks, herror⟩
  · exact Or.inl (by simp [hok, hlinked])
  · exact Or.inr ⟨slot, hlacks, by simp [herror]⟩

/-- In a consistent tree the loop is refused only for a slot that a node below the root lacks, and names it. -/
theorem Validates.lacking {result : Except TreeError Unit} (hv : t.Validates seen pending result) (h : t.Consistent)
    (hroot : t.parent? root = none) (hf : t.Found root seen pending) {e : TreeError} (he : result = .error e) :
    ∃ id n slot, t.Below id root ∧ t.get? id = some n ∧ n.Lacks slot ∧
      e = .schemaMismatch n.kind slot "a node" "nothing" := by
  -- along the rounds, what has been found so far stays as `Found` describes it
  induction hv with
  | done => cases he
  | @refused seen pending id e' hnext =>
    cases he
    obtain ⟨n, hid⟩ := hf.live id (by simp)
    rcases hf.checkNext_cases h hid with hok | ⟨slot, hlacks, herror⟩
    · rw [hok] at hnext
      cases hnext
    · rw [herror] at hnext
      exact ⟨id, n, slot, hf.below id (by simp), hid, hlacks, (Except.error.inj hnext).symm⟩
  | next hnext _ ih =>
    obtain ⟨-, n, hid, rfl⟩ := checkNext_eq_ok hnext
    exact ih (hf.step h hroot hid) he

theorem Consistent.validate_of_root (h : t.Consistent) (hr : t.root = some root) :
    t.validate = t.validateFrom (t.nodes.size + 1) [] [root] := by
  obtain ⟨n, hn, hp⟩ := h.root hr
  simp [validate, hr, node_of_get? hn, hp]

theorem Consistent.validates_validate (h : t.Consistent) (hr : t.root = some root) :
    t.Validates [] [root] t.validate := by
  rw [h.validate_of_root hr]
  exact validates_validateFrom [root] .nil (by simp) (by simp)

/-- **Validation is exact.** In every tree that operations build, validation runs to its end; it misses a root exactly
if none is set, it accepts exactly if one is set and no reachable node has an empty required slot, and what else it
refuses is such a slot, of a reachable node whose kind it names too. -/
theorem Built.validate_exact (h : t.Built) :
    (∀ r, t.root = some r → t.Validates [] [r] t.validate) ∧
      (t.validate = .error .missingRoot ↔ t.root = none) ∧
      (t.validate = .ok () ↔ t.root ≠ none ∧ ∀ id n slot, t.Reachable id → t.get? id = some n → ¬ n.Lacks slot) ∧
      ∀ e, t.validate = .error e → e = .missingRoot ∨ ∃ id n slot, t.Reachable id ∧ t.get? id = some n ∧
        n.Lacks slot ∧ e = .schemaMismatch n.kind slot "a node" "nothing" := by
  have hc := h.consistent
  cases hr : t.root with
  | none =>
    have hmissing : t.validate = .error .missingRoot := by simp [validate, hr]
    simp [hmissing]
  | some r =>
    have hruns := hc.validates_validate hr
    obtain ⟨top, htop, -⟩ := hc.root hr
    have hlacking (e : TreeError) (he : t.validate = .error e) := hruns.lacking hc (hc.parent?_root hr) (.start htop) he
    refine ⟨by rintro _ ⟨⟩; exact hruns, iff_of_false (fun hmissing => ?_) (by simp), ?_, fun e he => Or.inr ?_⟩
    · obtain ⟨id, n, slot, -, -, -, hne⟩ := hlacking _ hmissing
      cases hne
    · rw [hc.validate_eq_ok_iff]
      constructor
      · rintro ⟨r', hr', hcomplete⟩
        refine ⟨by simp, fun id n slot ⟨r'', hr'', hb⟩ hid => (hc.complete_iff hid).1 (hcomplete id ?_) slot⟩
        rwa [Option.some.inj (hr'.symm.trans hr'')]
      · rintro ⟨-, hfull⟩
        refine ⟨r, hr, fun x hx n hn => (hc.complete_iff hn).2 (fun slot => hfull x n slot ⟨r, hr, hx⟩ hn) n hn⟩
    · obtain ⟨id, n, slot, hb, hid, hlacks, rfl⟩ := hlacking e he
      exact ⟨id, n, slot, ⟨r, hr, hb⟩, hid, hlacks, rfl⟩

/-- A module with two statements, the second of which measures a text (`#3`) that has been detached. -/
def detachedOperand : Tree :=
  .applyAll {} [
    .newNode .module default (.scope "m") [.one none],
    .newNode .constantRef default (.constant (.str "a")) [],
    .newNode .statementExpressionOnly default .none [.filled ⟨1⟩],
    .newNode .constantRef default (.constant (.str "b")) [],
    .newNode .builtinLen default .none [.filled ⟨3⟩],
    .newNode .statementExpressionOnly default .none [.filled ⟨4⟩],
    .newNode .statementsSequence default .none [.many [⟨2⟩, ⟨5⟩]],
    .setBody ⟨0⟩ ⟨6⟩,
    .setRoot ⟨0⟩,
    .detach ⟨3⟩]

theorem validate_exact_detachedOperand : detachedOperand.Built ∧
    detachedOperand.Validates [] [⟨0⟩] (.error (.schemaMismatch .builtinLen "value" "a node" "nothing")) ∧
    (∃ id n, detachedOperand.Reachable id ∧ detachedOperand.get? id = some n ∧ n.kind = .builtinLen ∧
      n.Lacks "value") ∧
    ¬ ∀ id n slot, detachedOperand.Reachable id → detachedOperand.get? id = some n → ¬ n.Lacks slot := by
  have hbuilt : detachedOperand.Built := ⟨_, rfl⟩
  have hroot : detachedOperand.root = some ⟨0⟩ := by decide +kernel
  have hrefused : detachedOperand.validate = .error (.schemaMismatch .builtinLen "value" "a node" "nothing") := rfl
  obtain ⟨hruns, -, haccepts, hrefuses⟩ := hbuilt.validate_exact
  refine ⟨hbuilt, hrefused ▸ hruns ⟨0⟩ hroot, ?_, fun hfull => ?_⟩
  · obtain hmissing | ⟨id, n, slot, hreachable, hid, hlacks, heq⟩ := hrefuses _ hrefused
    · cases hmissing
    · obtain ⟨hkind, rfl, -, -⟩ := TreeError.schemaMismatch.inj heq
      exact ⟨id, n, hreachable, hid, hkind.symm, hlacks⟩
  · have haccepted := haccepts.2 ⟨by simp [hroot], hfull⟩
    rw [hrefused] at haccepted
    cases haccepted

end Tree

end Specializer
