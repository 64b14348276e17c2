import Specializer.Proofs.Replacement.Repose
import Specializer.Proofs.Tree.Inversion

/-!
# What folding throws away

An operation that is folded is torn down with its operands, so evaluating an operand must not be noticed. Nearly all
operands are constants, or entries of a dictionary over constants, which do nothing as long as what is known about a
single node only takes away from what its kind may do (`Node.Restrained`).

The namespaces of an import are the exception. They are asked for side effects, but not whether they may raise, so they
can be thrown away although they would have raised (`foldOperation_expends`, `undefinedNamespace_folded`).
-/

namespace Specializer

/-- What is known about a node only takes away from what its kind may do. -/
structure Node.Restrained (n : Node) : Prop where
  mayRaise : n.capabilities.mayRaise = true → n.kind.capabilities.mayRaise = true
  sideEffects : n.capabilities.sideEffects = true → n.kind.capabilities.sideEffects = true

/-- The two kinds of node that folding throws away do nothing by themselves. -/
theorem Node.Restrained.silent {n : Node} (h : n.Restrained) (hkind : n.kind = .constantRef ∨ n.kind = .keyValuePair) :
    n.capabilities.sideEffects = false ∧ n.capabilities.mayRaise = false := by
  constructor
  · refine Bool.eq_false_iff.2 fun hm => ?_
    rcases hkind with hkind | hkind <;> simpa [hkind, NodeKind.capabilities] using h.sideEffects hm
  · refine Bool.eq_false_iff.2 fun hm => ?_
    rcases hkind with hkind | hkind <;> simpa [hkind, NodeKind.capabilities] using h.mayRaise hm

theorem NodeKind.nodup_slots (kind : NodeKind) : (kind.slots.map (·.name)).Nodup := by
  have hall : ∀ kind ∈ NodeKind.all, (kind.slots.map (·.name)).Nodup := by decide
  exact hall kind kind.mem_all

namespace Tree

variable {t t' : Tree} {id c : NodeId} {n : Node}

/-- Every node below one is restrained. -/
def RestrainedBelow (t : Tree) (id : NodeId) : Prop :=
  ∀ x n, t.StrictlyBelow x id → t.get? x = some n → n.Restrained

theorem child_eq_ok {name : String} {c? : Option NodeId} (h : t.child id name = .ok c?) :
    ∃ n index, t.get? id = some n ∧ n.kind.slotIndex? name = some index ∧ n.slots[index]? = some (.one c?) := by
  obtain ⟨content, hslot, h⟩ := bind_eq_ok_iff.1 h
  obtain ⟨n, index, hn, hindex, hget⟩ := slot_eq_ok hslot
  rcases content with child | children
  · cases h
    exact ⟨n, index, hn, hindex, hget⟩
  · obtain ⟨kind, -, h⟩ := bind_eq_ok_iff.1 h
    cases h

theorem slot_of_child {name : String} {c? : Option NodeId} (h : t.child id name = .ok c?) :
    t.slot id name = .ok (.one c?) := by
  obtain ⟨n, index, hn, hindex, hget⟩ := child_eq_ok h
  exact slot_of_get? hn (by rw [hindex]; exact hget)

/-- Every child stands in one of the slots of the kind. -/
theorem Consistent.exists_slot (h : t.Consistent) (hn : t.get? id = some n) (hc : c ∈ n.children) :
    ∃ spec ∈ n.kind.slots, ∃ s, t.slot id spec.name = .ok s ∧ c ∈ s.ids := by
  obtain ⟨s, hs, hmem⟩ := List.mem_flatMap.1 hc
  obtain ⟨i, hlt, rfl⟩ := List.getElem_of_mem hs
  have hlen : n.slots.length = n.kind.slots.length := by simpa using congrArg List.length (h.conforms hn).forms
  have hi : i < n.kind.slots.length := hlen ▸ hlt
  have hindex : n.kind.slotIndex? n.kind.slots[i].name = some i := by
    refine List.findIdx?_eq_some_iff_getElem.2 ⟨hi, by simp, fun j hj => ?_⟩
    have hne := List.pairwise_iff_getElem.1 n.kind.nodup_slots j i (by simp; omega) (by simpa using hi) hj
    simpa using hne
  exact ⟨n.kind.slots[i], List.getElem_mem hi, n.slots[i],
    slot_of_get? hn (by rw [hindex]; exact List.getElem?_eq_getElem hlt), hmem⟩

/-- Every child is what can be read in one of the slots of the kind. -/
theorem Consistent.exists_place (h : t.Consistent) (hn : t.get? id = some n) (hc : c ∈ n.children) :
    ∃ spec ∈ n.kind.slots, (∀ {c?}, t.child id spec.name = .ok c? → c? = some c) ∧
      ∀ {ids}, t.childrenIn id spec.name = .ok ids → c ∈ ids := by
  obtain ⟨spec, hspec, s, hslot, hmem⟩ := h.exists_slot hn hc
  refine ⟨spec, hspec, fun {c?} hchild => ?_, fun {ids} hids => ?_⟩
  · cases hslot.symm.trans (slot_of_child hchild)
    simpa [Slot.ids, eq_comm] using hmem
  · rw [childrenIn, hslot] at hids
    exact Except.ok.inj hids ▸ hmem

/-! ## Constants -/

theorem Consistent.constantRef (h : t.Consistent) {value : Constant} (hv : t.constant? id = some value) :
    ∃ n, t.get? id = some n ∧ n.kind = .constantRef ∧ n.children = [] := by
  obtain ⟨n, hn, hvalue⟩ := Option.bind_eq_some_iff.1 hv
  have hform : n.kind.payloadForm = .constant := by
    rw [← (h.conforms hn).payload]
    unfold Node.constant? at hvalue
    split at hvalue
    · next hp => rw [hp]; rfl
    · cases hvalue
  have hall : ∀ kind ∈ NodeKind.all, kind.payloadForm = .constant → kind = .constantRef := by decide
  have hkind := hall n.kind n.kind.mem_all hform
  have hslots : n.slots = [] := by simpa [hkind, NodeKind.slots] using (h.conforms hn).forms
  exact ⟨n, hn, hkind, by simp [Node.children, hslots]⟩

/-- Evaluating a node cannot be noticed. -/
structure Silent (t : Tree) (id : NodeId) : Prop where
  sideEffects : t.mayHaveSideEffects id = .ok false
  mayRaise : t.mayRaise id = .ok false

section Tests

variable {test : Node → Bool}
  (htest : ∀ n : Node, n.Restrained → n.kind = .constantRef ∨ n.kind = .keyValuePair → test n = false)

include htest

theorem Consistent.anyOperandUpTo_constant (h : t.Consistent) {value : Constant} (hv : t.constant? id = some value)
    (hr : ∀ n, t.get? id = some n → n.Restrained) (fuel : Nat) : t.anyOperandUpTo test (fuel + 1) id = .ok false := by
  obtain ⟨n, hn, hkind, hchildren⟩ := h.constantRef hv
  refine anyOperandUpTo_succ_eq_false_iff.2 ⟨n, hn, htest n (hr n hn) (.inl hkind), .inr ?_⟩
  simp [hchildren]

theorem Consistent.anyOperand_entry (h : t.Consistent) (hn : t.get? id = some n) (hkind : n.kind = .keyValuePair)
    (hr : n.Restrained) (hchildren : ∀ c ∈ n.children, (∃ value, t.constant? c = some value) ∧
      ∀ m, t.get? c = some m → m.Restrained) : t.anyOperand test id = .ok false := by
  refine anyOperandUpTo_succ_eq_false_iff.2 ⟨n, hn, htest n hr (.inr hkind), .inr fun c hc => ?_⟩
  obtain ⟨⟨value, hv⟩, hm⟩ := hchildren c hc
  obtain ⟨fuel, hfuel⟩ := Nat.exists_eq_add_of_lt (lt_size_of_get? hn)
  rw [show t.nodes.size = id.index + fuel + 1 from hfuel]
  exact h.anyOperandUpTo_constant htest hv hm _

end Tests

theorem Consistent.silent_constant (h : t.Consistent) {value : Constant} (hv : t.constant? id = some value)
    (hr : ∀ n, t.get? id = some n → n.Restrained) : t.Silent id where
  sideEffects := h.anyOperandUpTo_constant (fun _ hn hkind => (hn.silent hkind).1) hv hr _
  mayRaise := h.anyOperandUpTo_constant (fun _ hn hkind => (hn.silent hkind).2) hv hr _

/-- The kind of an entry is known from its slots. -/
theorem Consistent.entry_children (h : t.Consistent) {key value : NodeId} (hkey : t.child id "key" = .ok (some key))
    (hvalue : t.child id "value" = .ok (some value)) :
    ∃ n, t.get? id = some n ∧ n.kind = .keyValuePair ∧ n.children = [key, value] := by
  obtain ⟨n, i, hn, hi, hki⟩ := child_eq_ok hkey
  obtain ⟨n', j, hn', hj, hvj⟩ := child_eq_ok hvalue
  obtain rfl : n' = n := Option.some.inj (hn'.symm.trans hn)
  have hall : ∀ kind ∈ NodeKind.all, (kind.slotIndex? "key").isSome → kind = .keyValuePair := by decide
  have hkind := hall n'.kind n'.kind.mem_all (by rw [hi]; rfl)
  have hslots : n'.slots.length = 2 := by
    simpa [hkind, NodeKind.slots] using congrArg List.length (h.conforms hn).forms
  rw [hkind] at hi hj
  obtain rfl : i = 0 := Option.some.inj (hi.symm.trans (by decide))
  obtain rfl : j = 1 := Option.some.inj (hj.symm.trans (by decide))
  refine ⟨n', hn, hkind, ?_⟩
  match hs : n'.slots, hslots with
  | [a, b], _ =>
    simp only [hs, List.getElem?_cons_zero, List.getElem?_cons_succ, Option.some.injEq] at hki hvj
    simp [Node.children, hs, hki, hvj, Slot.ids]

theorem Consistent.silent_entry (h : t.Consistent) {key value : NodeId} {k v : Constant}
    (hkey : t.child id "key" = .ok (some key)) (hvalue : t.child id "value" = .ok (some value))
    (hk : t.constant? key = some k) (hv : t.constant? value = some v)
    (hr : ∀ x n, t.Below x id → t.get? x = some n → n.Restrained) : t.Silent id := by
  obtain ⟨n, hn, hkind, hchildren⟩ := h.entry_children hkey hvalue
  have hparts : ∀ c ∈ n.children, (∃ value, t.constant? c = some value) ∧ ∀ m, t.get? c = some m → m.Restrained := by
    intro c hc
    have hbelow : t.Below c id := .single ((h.isParent_iff hn).2 hc)
    rw [hchildren] at hc
    rcases List.mem_pair.1 hc with rfl | rfl
    · exact ⟨⟨k, hk⟩, fun m => hr _ m hbelow⟩
    · exact ⟨⟨v, hv⟩, fun m => hr _ m hbelow⟩
  have hself := hr id n .refl hn
  exact ⟨h.anyOperand_entry (fun _ hn hkind => (hn.silent hkind).1) hn hkind hself hparts,
    h.anyOperand_entry (fun _ hn hkind => (hn.silent hkind).2) hn hkind hself hparts⟩

/-! ## Operands -/

theorem constantOperands_eq_ok : ∀ {specs : List SlotSpec} {values : List (Option Constant)},
    t.constantOperands id specs = .ok (some values) → ∀ spec ∈ specs, ∃ c?, t.child id spec.name = .ok c? ∧
      ∀ c ∈ c?, ∃ value, t.constant? c = some value
  | [], _, _, _, hspec => nomatch hspec
  | spec :: specs, values, h, spec', hspec => by
    obtain ⟨c?, hchild, h⟩ := bind_eq_ok_iff.1 h
    have hrest : ∃ values', t.constantOperands id specs = .ok (some values') ∧ ∀ c ∈ c?, ∃ value, t.constant? c = some value := by
      cases c? with
      | none =>
        obtain ⟨values'?, hrest, h⟩ := bind_eq_ok_iff.1 h
        obtain ⟨values', hvalues', -⟩ := Option.map_eq_some_iff.1 (Except.ok.inj h)
        exact ⟨values', hvalues' ▸ hrest, nofun⟩
      | some c =>
        cases hv : t.constant? c with
        | none => simp [hv] at h
        | some value =>
          simp only [hv] at h
          obtain ⟨values'?, hrest, h⟩ := bind_eq_ok_iff.1 h
          obtain ⟨values', hvalues', -⟩ := Option.map_eq_some_iff.1 (Except.ok.inj h)
          exact ⟨values', hvalues' ▸ hrest, by simp [hv]⟩
    obtain ⟨values', hrest, hc⟩ := hrest
    rcases List.mem_cons.1 hspec with rfl | hspec
    · exact ⟨c?, hchild, hc⟩
    · exact constantOperands_eq_ok hrest spec' hspec

theorem constantEntries_eq_ok : ∀ {pairs : List NodeId} {entries : List (String × Constant)},
    t.constantEntries pairs = .ok (some entries) → ∀ pair ∈ pairs, ∃ key value k v,
      t.child pair "key" = .ok (some key) ∧ t.child pair "value" = .ok (some value) ∧
        t.constant? key = some k ∧ t.constant? value = some v
  | [], _, _, _, hpair => nomatch hpair
  | pair :: pairs, entries, h, pair', hpair => by
    obtain ⟨key?, hkey, h⟩ := bind_eq_ok_iff.1 h
    obtain ⟨value?, hvalue, h⟩ := bind_eq_ok_iff.1 h
    dsimp only at h
    split at h
    · next k v hk hv =>
      obtain ⟨entries'?, hrest, h⟩ := bind_eq_ok_iff.1 h
      obtain ⟨entries', hentries', -⟩ := Option.map_eq_some_iff.1 (Except.ok.inj h)
      obtain ⟨key, rfl, hk⟩ := Option.bind_eq_some_iff.1 hk
      obtain ⟨value, rfl, hv⟩ := Option.bind_eq_some_iff.1 hv
      rcases List.mem_cons.1 hpair with rfl | hpair
      · exact ⟨key, value, .str k, v, hkey, hvalue, hk, hv⟩
      · exact constantEntries_eq_ok (hentries' ▸ hrest) pair' hpair
    · cases h

/-- An operand that is known ahead: a constant, or an entry over constants. -/
def KnownOperand (t : Tree) (c : NodeId) : Prop :=
  (∃ value, t.constant? c = some value) ∨ ∃ key value k v, t.child c "key" = .ok (some key) ∧
    t.child c "value" = .ok (some value) ∧ t.constant? key = some k ∧ t.constant? value = some v

/-- **The operands of an operation over constants are known ahead.** -/
theorem Consistent.known_of_constantArguments (h : t.Consistent) (hn : t.get? id = some n)
    {arguments : BoundArguments Constant} (hargs : t.constantArguments id = .ok (some arguments)) (hc : c ∈ n.children) :
    t.KnownOperand c := by
  obtain ⟨spec, hspec, s, hslot, hmem⟩ := h.exists_slot hn hc
  -- an operand in a slot for a single node
  have single {specs : List SlotSpec} {values : List (Option Constant)} (hin : spec ∈ specs)
      (hvalues : t.constantOperands id specs = .ok (some values)) : t.KnownOperand c := by
    obtain ⟨c?, hc?, hconstant⟩ := constantOperands_eq_ok hvalues spec hin
    cases hslot.symm.trans (slot_of_child hc?)
    exact .inl (hconstant c (by simpa [Slot.ids] using hmem))
  obtain ⟨kind, hkind, hargs⟩ := bind_eq_ok_iff.1 hargs
  obtain rfl : n.kind = kind := Except.ok.inj ((ReplaceM.kind_ok hn).symm.trans hkind)
  split at hargs
  · next hdict =>
    obtain ⟨values?, hvalues, hargs⟩ := bind_eq_ok_iff.1 hargs
    rcases values? with _ | values
    · cases hargs
    rw [hdict] at hspec
    rcases List.mem_pair.1 (show spec ∈ [NodeKind.optional "pos_arg", NodeKind.sequence "pairs"] from hspec) with
      rfl | rfl
    · exact single (List.mem_singleton_self _) hvalues
    · obtain ⟨pairs, hpairs, hargs⟩ := bind_eq_ok_iff.1 hargs
      obtain ⟨entries?, hentries, hargs⟩ := bind_eq_ok_iff.1 hargs
      obtain ⟨entries, rfl, -⟩ := Option.map_eq_some_iff.1 (Except.ok.inj hargs)
      obtain rfl : s.ids = pairs := by
        rw [childrenIn, show t.slot id "pairs" = _ from hslot] at hpairs
        exact Except.ok.inj hpairs
      exact .inr (constantEntries_eq_ok hentries c hmem)
  · obtain ⟨values?, hvalues, hargs⟩ := bind_eq_ok_iff.1 hargs
    obtain ⟨values, rfl, -⟩ := Option.map_eq_some_iff.1 (Except.ok.inj hargs)
    exact single hspec hvalues

/-- An operand that is known ahead cannot be noticed. -/
theorem KnownOperand.silent (hknown : t.KnownOperand c) (h : t.Consistent) (hr : t.RestrainedBelow id)
    (hchild : t.IsParent c id) : t.Silent c := by
  have hbelow : ∀ x m, t.Below x c → t.get? x = some m → m.Restrained :=
    fun x m hx => hr x m (.tail' hx hchild)
  rcases hknown with ⟨value, hv⟩ | ⟨key, value, k, v, hkey, hvalue, hk, hv⟩
  · exact h.silent_constant hv fun m => hbelow c m .refl
  · exact h.silent_entry hkey hvalue hk hv hbelow

/-- One of the namespaces an import is evaluated in. -/
def IsNamespace (t : Tree) (id c : NodeId) : Prop :=
  t.kind id = .ok .builtinImport ∧ (t.child id "globals" = .ok (some c) ∨ t.child id "locals" = .ok (some c))

/-- An operand that folding may throw away: it has no side effects, and may raise only as a namespace of an import. -/
structure Expendable (t : Tree) (id c : NodeId) : Prop where
  sideEffects : t.mayHaveSideEffects c = .ok false
  mayRaise : t.mayRaise c = .ok false ∨ t.IsNamespace id c

theorem Silent.expendable (h : t.Silent c) : t.Expendable id c := ⟨h.sideEffects, .inl h.mayRaise⟩

theorem constant?_of_importOperand {slot : String} (hchild : t.child id slot = .ok (some c))
    (hknown : t.importOperand id slot ≠ .unknown) : ∃ value, t.constant? c = some value := by
  simp only [importOperand, hchild] at hknown
  cases hv : t.constant? c with
  | none => simp [hv] at hknown
  | some value => exact ⟨value, rfl⟩

/-- What folding throws away with an operation: an operand that is known ahead, or a namespace of an import without side
effects. -/
def FoldedOperand (t : Tree) (id c : NodeId) : Prop :=
  t.KnownOperand c ∨ t.IsNamespace id c ∧ t.mayHaveSideEffects c = .ok false

theorem FoldedOperand.expendable (hfolded : t.FoldedOperand id c) (h : t.Consistent) (hr : t.RestrainedBelow id)
    (hchild : t.IsParent c id) : t.Expendable id c := by
  rcases hfolded with hknown | ⟨hspace, heffects⟩
  · exact (hknown.silent h hr hchild).expendable
  · exact ⟨heffects, .inr hspace⟩

theorem Consistent.folded_of_isStaticImport (h : t.Consistent) (hn : t.get? id = some n) {version : Version}
    (hstatic : t.isStaticImport version id = true) (hc : c ∈ n.children) : t.FoldedOperand id c := by
  simp only [isStaticImport, Bool.and_eq_true, Bool.not_eq_true', decide_eq_true_eq] at hstatic
  obtain ⟨⟨⟨⟨⟨hkind, hglobals⟩, hlocals⟩, hname⟩, hnames⟩, hlevel⟩ := hstatic
  obtain ⟨n', hn', hkind'⟩ := kind_eq_ok_iff.1 hkind
  obtain rfl : n' = n := Option.some.inj (hn'.symm.trans hn)
  obtain ⟨spec, hspec, hone, -⟩ := h.exists_place hn hc
  have single {slot : String} (hsingle : n'.kind.isSingle slot = true) (hname : spec.name = slot) :
      t.child id slot = .ok (some c) := by
    obtain ⟨c?, hc?, -⟩ := h.child_ok hn slot hsingle
    subst hname
    rw [hc?, hone hc?]
  have known {slot : String} (hchild' : t.child id slot = .ok (some c)) (hknown : t.importOperand id slot ≠ .unknown) :
      t.FoldedOperand id c :=
    .inl (.inl (constant?_of_importOperand hchild' hknown))
  have namespaced {slot : String} (hchild' : t.child id slot = .ok (some c)) (heffects : t.hasEffectsIn id slot = false)
      (hspace : t.IsNamespace id c) : t.FoldedOperand id c := by
    refine .inr ⟨hspace, ?_⟩
    simpa [hasEffectsIn, hchild'] using heffects
  rw [hkind'] at hspec
  simp only [NodeKind.slots, List.mem_cons, List.not_mem_nil, or_false] at hspec
  rcases hspec with rfl | rfl | rfl | rfl | rfl
  · have hnamed : t.child id "name" = .ok (some c) := single (by rw [hkind']; decide) rfl
    exact known hnamed fun hu => by simp [hu, ReplaceM.importName?] at hname
  · have hglobal : t.child id "globals" = .ok (some c) := single (by rw [hkind']; decide) rfl
    exact namespaced hglobal hglobals ⟨hkind, .inl hglobal⟩
  · have hlocal : t.child id "locals" = .ok (some c) := single (by rw [hkind']; decide) rfl
    exact namespaced hlocal hlocals ⟨hkind, .inr hlocal⟩
  · have hlisted : t.child id "fromlist" = .ok (some c) := single (by rw [hkind']; decide) rfl
    exact known hlisted fun hu => by simp [hu, ReplaceM.importedNames?] at hnames
  · have hleveled : t.child id "level" = .ok (some c) := single (by rw [hkind']; decide) rfl
    exact known hleveled fun hu => by simp [hu, ReplaceM.importLevel?] at hlevel

/-- A tree has gained a node without children. -/
def GainsLeaf (t t' : Tree) (id : NodeId) : Prop :=
  ∃ kind source payload, t.Makes kind payload [] ∧ id = t.nextId ∧ t' = t.addNode kind source payload []

theorem GainsLeaf.isParent_iff {leaf p : NodeId} (h : GainsLeaf t t' leaf) : t'.IsParent c p ↔ t.IsParent c p := by
  obtain ⟨kind, source, payload, hmakes, rfl, rfl⟩ := h
  by_cases hc : c = t.nextId
  · subst hc
    simp [IsParent, parent?, get?_addNode_nextId, get?_nextId]
  · simp [IsParent, parent?, get?_addNode_of_ne kind source payload [] t hc]

theorem GainsLeaf.get?_eq {leaf x : NodeId} (h : GainsLeaf t t' leaf) (hx : x ≠ leaf) : t'.get? x = t.get? x := by
  obtain ⟨kind, source, payload, -, rfl, rfl⟩ := h
  simp [get?_addNode_of_ne kind source payload [] t hx]

theorem GainsLeaf.ne {leaf x : NodeId} (h : GainsLeaf t t' leaf) (hx : t.get? x = some n) : x ≠ leaf := by
  obtain ⟨kind, source, payload, -, rfl, rfl⟩ := h
  exact ne_nextId_of_get? hx

theorem GainsLeaf.get? {leaf x : NodeId} (h : GainsLeaf t t' leaf) (hx : t.get? x = some n) : t'.get? x = some n :=
  (h.get?_eq (h.ne hx)).trans hx

theorem GainsLeaf.stale {leaf : NodeId} (h : GainsLeaf t t' leaf) : t.get? leaf = none := by
  obtain ⟨kind, source, payload, -, rfl, rfl⟩ := h
  exact get?_nextId t

theorem GainsLeaf.root {leaf : NodeId} (h : GainsLeaf t t' leaf) : t'.root = t.root := by
  obtain ⟨kind, source, payload, -, rfl, rfl⟩ := h
  simp

/-- A new leaf changes nothing below a node. -/
theorem GainsLeaf.below_iff {leaf x : NodeId} (h : GainsLeaf t t' leaf) : t'.Below x id ↔ t.Below x id := by
  have hsame : t'.IsParent = t.IsParent := by
    funext c p
    exact propext h.isParent_iff
  rw [Below, Below, hsame]

/-- A new leaf hangs below nothing. -/
theorem GainsLeaf.not_below {leaf p : NodeId} (h : GainsLeaf t t' leaf) (hp : t.IsParent id p) : ¬ t'.Below leaf id := by
  rw [h.below_iff]
  intro hb
  obtain ⟨n, hn, -⟩ := parent?_eq_some_iff.1 hp
  rcases Relation.ReflTransGen.cases_head hb with rfl | ⟨q, hq, -⟩
  · exact h.ne hn rfl
  · obtain ⟨m, hm, -⟩ := parent?_eq_some_iff.1 hq
    exact h.ne hm rfl

theorem GainsLeaf.consistent {leaf : NodeId} (h : GainsLeaf t t' leaf) (hc : t.Consistent) :
    t'.Consistent := by
  obtain ⟨kind, source, payload, hmakes, -, rfl⟩ := h
  exact hc.addNode hmakes

end Tree

namespace ReplaceM

open Specializer.Tree

variable {α : Type} {s : Settings} {w w' : Workspace} {id id' c : NodeId} {n : Node}

/-- A computation that only looks at the tree. -/
def Looks (x : ReplaceM α) : Prop := ∀ ⦃s w a w'⦄, x s w = .ok a w' → w'.tree = w.tree

theorem looks_pure (a : α) : Looks (pure a) := fun s w a' w' h => by
  cases h
  rfl

theorem looks_version : Looks version := fun s w a w' h => by
  cases h
  rfl

theorem looks_recordExit (kind : ExceptionKind) (source : SourceRef) : Looks (recordExit kind source) :=
  fun s w a w' h => by
    cases h
    rfl

theorem looks_ask (question : Tree → Except TreeError α) : Looks (ask question) := fun s w a w' h => by
  obtain ⟨-, rfl⟩ := ask_eq_ok_iff.1 h
  rfl

theorem looks_tree : Looks tree := fun s w a w' h => by
  cases h
  rfl

theorem Looks.bind {β : Type} {x : ReplaceM α} {f : α → ReplaceM β} (hx : Looks x) (hf : ∀ a, Looks (f a)) :
    Looks (x >>= f) := fun s w b w' h => by
  obtain ⟨a, w₁, hx₁, h⟩ := reads_bind_eq_ok_iff.1 h
  rw [hf a h, hx hx₁]

theorem looks_hasSideEffects (id : NodeId) (slot : String) : Looks (hasSideEffects id slot) := by
  refine .bind (looks_ask _) fun operand? => ?_
  split
  · exact looks_pure _
  · exact looks_ask _

theorem looks_importOperand (id : NodeId) (slot : String) : Looks (importOperand id slot) := by
  refine .bind (looks_ask _) fun operand? => ?_
  split
  · exact looks_pure _
  · refine .bind looks_tree fun t => ?_
    split <;> exact looks_pure _

/-- A computation that offers nothing and leaves the tree as it is, or offers a new leaf provided that the tree it found
passes `q`. -/
def Offers (q : Tree → Prop) (x : ReplaceM Computed) : Prop := ∀ ⦃s w computed w'⦄, x s w = .ok computed w' →
  computed.change = none ∧ w'.tree = w.tree ∨ GainsLeaf w.tree w'.tree computed.node ∧ q w.tree

namespace Offers

variable {q : Tree → Prop} {f : α → ReplaceM Computed}

theorem ret (id : NodeId) : Offers q (pure (.unchanged id)) := fun s w computed w' h => by
  cases h
  exact .inl ⟨rfl, rfl⟩

theorem ask {question : Tree → Except TreeError α} (hf : ∀ a, Offers (fun t => question t = .ok a → q t) (f a)) :
    Offers q (ask question >>= f) := fun s w computed w' h => by
  obtain ⟨a, ha, h⟩ := ask_bind_eq_ok_iff.1 h
  exact (hf a h).imp_right fun ⟨hleaf, hq⟩ => ⟨hleaf, hq ha⟩

theorem look {f : Tree → ReplaceM Computed} (hf : ∀ t, Offers (fun t' => t' = t → q t') (f t)) :
    Offers q (tree >>= f) := fun s w computed w' h => by
  rw [reads_bind_of_ok tree_ok] at h
  exact (hf w.tree h).imp_right fun ⟨hleaf, hq⟩ => ⟨hleaf, hq rfl⟩

theorem after {x : ReplaceM α} (hx : Looks x) (hf : ∀ a, Offers q (f a)) : Offers q (x >>= f) :=
  fun s w computed w' h => by
    obtain ⟨a, w₁, hx₁, h⟩ := reads_bind_eq_ok_iff.1 h
    rw [← hx hx₁]
    exact hf a h

theorem made {kind : NodeKind} {source : SourceRef} {payload : Payload} {tags : ChangeTags} {message : String}
    (hq : ∀ t, q t) :
    Offers q (onTree (TreeM.newNode kind source payload []) >>= fun id => pure (.changed id tags message)) :=
  fun s w computed w' h => by
    obtain ⟨id, w₁, hmake, h⟩ := reads_bind_eq_ok_iff.1 h
    cases h
    obtain ⟨hmakes, rfl, htree⟩ := newNode_eq_ok (onTree_eq_ok hmake)
    exact .inr ⟨⟨kind, source, payload, hmakes, rfl, htree⟩, hq _⟩

end Offers

theorem offers_foldBuiltin (id : NodeId) (signature : Signature) :
    Offers (fun t => ∃ arguments, t.constantArguments id = .ok (some arguments)) (foldBuiltin id signature) := by
  unfold foldBuiltin
  split
  · exact .ret id
  refine .ask fun arguments? => ?_
  split
  · exact .ret id
  refine .ask fun source => .after looks_version fun version => ?_
  split
  · exact .made fun t _ hargs => ⟨_, hargs⟩
  · exact .after (looks_recordExit ..) fun _ => .made fun t _ hargs => ⟨_, hargs⟩
  · exact .ret id

theorem offers_foldType (id : NodeId) : Offers
    (fun t => ∃ c value, t.child id "value" = .ok (some c) ∧ t.constant? c = some value) (foldType id) := by
  refine .ask fun c? => .look fun t => ?_
  split
  · next value hvalue =>
    obtain ⟨c, rfl, hvalue⟩ := Option.bind_eq_some_iff.1 hvalue
    split
    · exact .ret id
    refine .after looks_version fun version => .after looks_version fun version' => ?_
    split
    · exact .ret id
    exact .ask fun source => .made fun t' _ ht hchild => ⟨c, value, hchild, ht ▸ hvalue⟩
  · exact .ret id

theorem offers_foldImport (id : NodeId) : Offers (fun _ => True) (foldImport id) := by
  refine .after (looks_hasSideEffects ..) fun globals => ?_
  split
  · exact .ret id
  refine .after (looks_hasSideEffects ..) fun locals => ?_
  split
  · exact .ret id
  refine .after (looks_importOperand ..) fun name => ?_
  split
  · refine .after (looks_importOperand ..) fun fromlist => ?_
    split
    · refine .after looks_version fun version => .after (looks_importOperand ..) fun level => ?_
      split
      · exact .ask fun source => .made fun _ _ => trivial
      · exact .ret id
    · exact .ret id
  · exact .ret id

/-! ## Handlers -/

/-- What a handler for operations of a kind does: it leaves an operation alone, or offers a new leaf in its place if all
operands can be thrown away. -/
structure Folds (kind : NodeKind) (handler : FoldHandler) : Prop where
  of_ok : ∀ {s w w' id n computed}, w.tree.Consistent → w.tree.get? id = some n → n.kind = kind →
    handler id s w = .ok computed w' → computed.change = none ∧ w'.tree = w.tree ∨
      GainsLeaf w.tree w'.tree computed.node ∧ ∀ c ∈ n.children, w.tree.FoldedOperand id c

theorem folds_foldBuiltin (kind : NodeKind) (signature : Signature) :
    Folds kind fun id => foldBuiltin id signature where
  of_ok hc hn _ h := (offers_foldBuiltin _ _ h).imp_right fun ⟨hleaf, _, hargs⟩ =>
    ⟨hleaf, fun _ hmem => .inl (hc.known_of_constantArguments hn hargs hmem)⟩

theorem folds_foldByKey (kind : NodeKind) (key : String) : Folds kind (foldByKey key) where
  of_ok {s w w' id n computed} hc hn hkind h := by
    unfold foldByKey at h
    cases hsignature : Signature.ofKey? key with
    | none =>
      simp only [hsignature] at h
      cases h
      exact .inl ⟨rfl, rfl⟩
    | some signature =>
      simp only [hsignature] at h
      exact (folds_foldBuiltin kind signature).of_ok hc hn hkind h

theorem computeRange_eq_ok {source : SourceRef} {computed : Computed}
    (h : computeRange id source s w = .ok computed w') :
    ∃ w₁, foldBuiltin id Signature.range s w = .ok computed w₁ ∧ w'.tree = w₁.tree := by
  obtain ⟨result, w₁, hfold, h⟩ := reads_bind_eq_ok_iff.1 h
  cases hchanged : result.isChanged with
  | true =>
    simp only [hchanged, if_true] at h
    cases h
    exact ⟨_, hfold, rfl⟩
  | false =>
    simp only [hchanged, Bool.false_eq_true, if_false] at h
    cases h
    exact ⟨w₁, hfold, rfl⟩

theorem folds_computeNode : Folds .builtinRange computeNode where
  of_ok {s w w' id n computed} hc hn hkind h := by
    rw [computeNode_of_range hn hkind] at h
    obtain ⟨w₁, hfold, htree⟩ := computeRange_eq_ok h
    rw [htree]
    exact (folds_foldBuiltin .builtinRange Signature.range).of_ok hc hn hkind hfold

theorem folds_foldType : Folds .builtinType1 foldType where
  of_ok {s w w' id n computed} hc hn hkind h := by
    refine (offers_foldType id h).imp_right fun ⟨hleaf, v, value, hchild, hvalue⟩ => ⟨hleaf, fun c hmem => ?_⟩
    obtain ⟨spec, hspec, hone, -⟩ := hc.exists_place hn hmem
    rw [hkind] at hspec
    obtain rfl : spec = NodeKind.required "value" := List.mem_singleton.1 hspec
    cases hone hchild
    exact .inl (.inl ⟨value, hvalue⟩)

theorem folds_foldImport : Folds .builtinImport foldImport where
  of_ok {s w w' id n computed} hc hn hkind h := by
    rcases foldImport_cases (s := s) hc hn hkind with ⟨-, hkept⟩ | ⟨hstatic, -⟩
    · cases hkept.symm.trans h
      exact .inl ⟨rfl, rfl⟩
    · exact (offers_foldImport id h).imp_right fun hleaf =>
        ⟨hleaf.1, fun c hmem => hc.folded_of_isStaticImport hn hstatic hmem⟩

theorem folds_of_lookup? {kind : NodeKind} {key : String} {handler : FoldHandler} (hkey : kind.builtinKey? = some key)
    (h : foldHandlers.lookup? key = some handler) : Folds kind handler := by
  have htype : ∀ kind ∈ NodeKind.all, kind.builtinKey? = some "type1" → kind = .builtinType1 := by decide
  have hrange : ∀ kind ∈ NodeKind.all, kind.builtinKey? = some "range" → kind = .builtinRange := by decide
  have himport : ∀ kind ∈ NodeKind.all, kind.builtinKey? = some "import" → kind = .builtinImport := by decide
  refine DispatchTable.of_lookup? (t := foldHandlers)
    (p := fun e => ∀ kind : NodeKind, kind.builtinKey? = some e.1 → Folds kind e.2)
    (DispatchTable.forall_ofList ?_) (fun _ hf => nomatch (DispatchTable.fallback_ofList _).symm.trans hf) h kind hkey
  rw [List.forall_mem_append, List.forall_mem_map]
  refine ⟨?_, fun key _ kind _ => folds_foldByKey kind key⟩
  simp only [List.forall_mem_cons]
  refine ⟨fun kind hk => ?_, fun kind hk => ?_, fun kind hk => ?_, by simp⟩
  · exact htype kind kind.mem_all hk ▸ folds_foldType
  · exact hrange kind kind.mem_all hk ▸ folds_computeNode
  · exact himport kind kind.mem_all hk ▸ folds_foldImport

/-- A handler offers a new leaf in place of an operation only if all operands are expendable. -/
structure Expends (kind : NodeKind) (handler : FoldHandler) : Prop where
  of_ok : ∀ {s w w' id n computed}, w.tree.Consistent → w.tree.RestrainedBelow id → w.tree.get? id = some n →
    n.kind = kind → handler id s w = .ok computed w' → computed.change = none ∨
      GainsLeaf w.tree w'.tree computed.node ∧ ∀ c ∈ n.children, w.tree.Expendable id c

theorem expends_of_lookup? {kind : NodeKind} {key : String} {handler : FoldHandler} (hkey : kind.builtinKey? = some key)
    (h : foldHandlers.lookup? key = some handler) : Expends kind handler where
  of_ok hc hr hn hkind hrun := ((folds_of_lookup? hkey h).of_ok hc hn hkind hrun).imp And.left fun ⟨hleaf, hfolded⟩ =>
    ⟨hleaf, fun c hmem => (hfolded c hmem).expendable hc hr ((hc.isParent_iff hn).2 hmem)⟩

theorem node_of_applyComputed {computed : Computed} (hchange : computed.isChanged = true)
    (h : applyComputed id computed s w = .ok id' w') : id' = computed.node := by
  unfold applyComputed at h
  obtain ⟨change, hsome⟩ := Option.isSome_iff_exists.1 hchange
  simp only [hsome] at h
  obtain ⟨source, w₁, hask, h⟩ := reads_bind_eq_ok_iff.1 h
  by_cases hnode : computed.node = id
  · simp only [hnode, if_true] at h
    cases h
    exact hnode.symm
  · simp only [hnode, if_false] at h
    obtain ⟨u, w₁, -, h⟩ := reads_bind_eq_ok_iff.1 h
    cases h
    rfl

theorem applyComputed_eq_ok {computed : Computed} (h : applyComputed id computed s w = .ok id' w') (hne : id' ≠ id) :
    id' = computed.node ∧ ∃ tags source message w₁, replaceNode id id' s w = .ok () w₁ ∧
      w' = { w₁ with changes := w₁.changes.add tags source message } := by
  unfold applyComputed at h
  cases hchange : computed.change with
  | none =>
    simp only [hchange] at h
    cases h
    exact absurd rfl hne
  | some change =>
    simp only [hchange] at h
    obtain ⟨source, -, h⟩ := ask_bind_eq_ok_iff.1 h
    by_cases hnode : computed.node = id
    · simp only [hnode, if_true] at h
      cases h
      exact absurd rfl hne
    · simp only [hnode, if_false] at h
      obtain ⟨u, w₁, hreplace, h⟩ := reads_bind_eq_ok_iff.1 h
      cases h
      exact ⟨rfl, change.1, source, change.2, w₁, hreplace, rfl⟩

/-- What a replacement does to the tree; the rest of the workspace stays as it is. -/
theorem replaceNode_eq_ok {new : NodeId} (hc : w.tree.Consistent) (h : replaceNode id new s w = .ok () w') :
    (∃ parent, Replaced w.tree w'.tree id new parent) ∧ w' = { w with tree := w'.tree } := by
  obtain ⟨u, w₁, hreplace, hfinalize⟩ := reads_bind_eq_ok_iff.1 h
  obtain ⟨t₁, hold, rfl⟩ := onTree_eq_ok_iff.1 hreplace
  obtain ⟨t₂, hgone, rfl⟩ := onTree_eq_ok_iff.1 hfinalize
  exact ⟨hc.replaced hold hgone, rfl⟩

/-- **What folding throws away.** An operation that folding replaces is torn down with its operands, and no operand may
have side effects. None may raise either, unless it is a namespace of an import. -/
theorem foldOperation_expends (hc : w.tree.Consistent) (hr : w.tree.RestrainedBelow id)
    (hrun : Visitor.constantFolding.enter id s w = .ok id' w') (hne : id' ≠ id) (hchild : w.tree.IsParent c id) :
    w'.tree.get? c = none ∧ w.tree.mayHaveSideEffects c = .ok false ∧
      (w.tree.mayRaise c = .ok false ∨ w.tree.IsNamespace id c) := by
  change foldOperation id s w = .ok id' w' at hrun
  rw [foldOperation_eq] at hrun
  obtain ⟨kind, hkind, hrun⟩ := ask_bind_eq_ok_iff.1 hrun
  obtain ⟨n, hn, rfl⟩ := kind_eq_ok_iff.1 hkind
  cases hhandler : foldHandler? n.kind with
  | none =>
    simp only [hhandler] at hrun
    cases hrun
    exact absurd rfl hne
  | some handler =>
    simp only [hhandler] at hrun
    obtain ⟨computed, w₁, hfold, hrun⟩ := reads_bind_eq_ok_iff.1 hrun
    obtain ⟨key, hkey, hlookup⟩ := Option.bind_eq_some_iff.1 hhandler
    rcases (expends_of_lookup? hkey hlookup).of_ok hc hr hn rfl hfold with hquiet | ⟨hleaf, hoperands⟩
    · rw [applyComputed_unchanged hquiet] at hrun
      cases hrun
      exact absurd rfl hne
    · obtain ⟨heffects, hraise⟩ := hoperands c ((hc.isParent_iff hn).1 hchild)
      obtain ⟨rfl, tags, source, message, w₂, hreplace, rfl⟩ := applyComputed_eq_ok hrun hne
      obtain ⟨⟨parent, hreplaced⟩, -⟩ := replaceNode_eq_ok (hleaf.consistent hc) hreplace
      exact ⟨hreplaced.gone ((hleaf.below_iff).2 (.single hchild)), heffects, hraise⟩

end ReplaceM

/-! ## A namespace that raises -/

theorem Node.restrained_of_override {n : Node} (h : n.override = none) : n.Restrained := by
  have hcapabilities : n.capabilities = n.kind.capabilities := by rw [Node.capabilities, h]; rfl
  exact ⟨fun hm => hcapabilities ▸ hm, fun hm => hcapabilities ▸ hm⟩

/-- The module `__import__("x", spam)`. -/
def Tree.undefinedNamespace : Tree :=
  .applyAll {} [
    .newNode .module default (.scope "m") [.one none],
    .declareVariable ⟨0⟩ "spam" .module,
    .newNode .constantRef default (.constant (.str "x")) [],
    .newNode .variableRef default (.var ⟨0⟩) [],
    .newNode .builtinImport default .none [.filled ⟨1⟩, .filled ⟨2⟩, .one none, .one none, .one none],
    .newNode .statementExpressionOnly default .none [.filled ⟨3⟩],
    .newNode .statementsSequence default .none [.many [⟨4⟩]],
    .setBody ⟨0⟩ ⟨5⟩,
    .setRoot ⟨0⟩]

theorem Tree.undefinedNamespace_restrained (id : NodeId) : undefinedNamespace.RestrainedBelow id := by
  intro x n _ hn
  have hall : ∀ i < undefinedNamespace.nodes.size, ((undefinedNamespace.get? ⟨i⟩).all (·.override.isNone)) = true := by
    decide +kernel
  have hx := hall x.index (lt_size_of_get? hn)
  rw [hn] at hx
  exact Node.restrained_of_override (Option.isNone_iff_eq_none.1 hx)

/-- A walk through the module starts here. -/
def Tree.atModule (t : Tree) : Workspace :=
  { tree := t, trace := { unit := ⟨0⟩, name := "m", version := .python3 } }

theorem undefinedNamespace_enter : ∃ w', Visitor.constantFolding.enter ⟨3⟩ ⟨{}, .ofTable []⟩
    Tree.undefinedNamespace.atModule = .ok ⟨6⟩ w' ∧ w'.tree.get? ⟨2⟩ = none := by
  have hrun : (match Visitor.constantFolding.enter ⟨3⟩ ⟨{}, .ofTable []⟩ Tree.undefinedNamespace.atModule with
      | .ok id w' => decide (id = ⟨6⟩) && (w'.tree.get? ⟨2⟩).isNone
      | .error _ _ => false) = true := by decide +kernel
  generalize Visitor.constantFolding.enter ⟨3⟩ ⟨{}, .ofTable []⟩ Tree.undefinedNamespace.atModule = outcome at hrun
  cases outcome with
  | error e w' => cases hrun
  | ok id w' =>
    obtain ⟨hid, hgone⟩ := Bool.and_eq_true_iff.1 hrun
    exact ⟨w', by rw [of_decide_eq_true hid], Option.isNone_iff_eq_none.1 hgone⟩

theorem foldOperation_expends_undefinedNamespace : ∃ w', Visitor.constantFolding.enter ⟨3⟩ ⟨{}, .ofTable []⟩
      Tree.undefinedNamespace.atModule = .ok ⟨6⟩ w' ∧ ∀ c ∈ [⟨1⟩, ⟨2⟩], w'.tree.get? c = none ∧
        Tree.undefinedNamespace.mayHaveSideEffects c = .ok false ∧
        (Tree.undefinedNamespace.mayRaise c = .ok false ∨ Tree.undefinedNamespace.IsNamespace ⟨3⟩ c) := by
  obtain ⟨w', hrun, -⟩ := undefinedNamespace_enter
  have hbuilt : Tree.undefinedNamespace.Built := ⟨_, rfl⟩
  have hparent : ∀ c ∈ [(⟨1⟩ : NodeId), ⟨2⟩], Tree.undefinedNamespace.parent? c = some ⟨3⟩ := by decide +kernel
  exact ⟨w', hrun, fun c hc => ReplaceM.foldOperation_expends (w := Tree.undefinedNamespace.atModule) hbuilt.consistent
    (Tree.undefinedNamespace_restrained ⟨3⟩) hrun (by decide) (hparent c hc)⟩

/-- The name `spam` may raise, and is thrown away all the same. -/
theorem undefinedNamespace_folded : Tree.undefinedNamespace.Built ∧ Tree.undefinedNamespace.parent? ⟨2⟩ = some ⟨3⟩ ∧
    Tree.undefinedNamespace.mayRaise ⟨2⟩ = .ok true ∧ ∃ w', Visitor.constantFolding.enter ⟨3⟩ ⟨{}, .ofTable []⟩
      Tree.undefinedNamespace.atModule = .ok ⟨6⟩ w' ∧ w'.tree.get? ⟨2⟩ = none :=
  ⟨⟨_, rfl⟩, by decide +kernel, by decide +kernel, undefinedNamespace_enter⟩

end Specializer
