import Mathlib.Algebra.BigOperators.Group.List.Basic
import Mathlib.Data.List.Nodup
import Specializer.Proofs.Replacement.Outcome

/-!
# Reading call sites

In a tree that a plan fits, the slots of a node can be read by name, and so can the arguments of a call. A call of a
builtin that has been read can be given up together with its keywords (`Fits.opening`); its arguments are then
pending.
-/

namespace Specializer

/-! ## Slots by name -/

/-- Whether a kind has a slot for a single node with the given name. -/
def NodeKind.isSingle (kind : NodeKind) (name : String) : Bool :=
  ((kind.slotIndex? name).bind (kind.slots[·]?)).any fun spec => spec.arity != .sequence

theorem Slot.isSequence_eq_false {s : Slot} (h : s.isSequence = false) : ∃ c?, s = .one c? := by
  cases s with
  | one c? => exact ⟨c?, rfl⟩
  | many cs => cases h

namespace Tree

variable {t : Tree} {id : NodeId} {n : Node} {name : String}

theorem slot_of_get? (hn : t.get? id = some n) {s : Slot}
    (hs : (n.kind.slotIndex? name).bind (n.slots[·]?) = some s) : t.slot id name = .ok s := by
  rw [slot, node_of_get? hn, ok_bind, hs]
  rfl

theorem Consistent.slot_ok (h : t.Consistent) (hn : t.get? id = some n) {i : Nat}
    (hi : n.kind.slotIndex? name = some i) : ∃ s, t.slot id name = .ok s ∧ n.inSlot name = s.ids ∧
      n.slots[i]? = some s ∧ ∃ spec, n.kind.slots[i]? = some spec ∧ s.isSequence = (spec.arity == .sequence) := by
  have hforms := (h.conforms hn).forms
  obtain ⟨hlt, -⟩ := List.findIdx?_eq_some_iff_findIdx_eq.1 hi
  have hlen : n.slots.length = n.kind.slots.length := by simpa using congrArg List.length hforms
  obtain ⟨s, hs⟩ : ∃ s, n.slots[i]? = some s := ⟨_, List.getElem?_eq_getElem (by omega)⟩
  obtain ⟨spec, hspec⟩ : ∃ spec, n.kind.slots[i]? = some spec := ⟨_, List.getElem?_eq_getElem hlt⟩
  have hbind : (n.kind.slotIndex? name).bind (n.slots[·]?) = some s := by rw [hi]; exact hs
  refine ⟨s, slot_of_get? hn hbind, by rw [Node.inSlot, hbind]; rfl, hs, spec, hspec, ?_⟩
  have := congrArg (·[i]?) hforms
  simpa [hs, hspec] using this

/-- The child in a slot for a single node can be read. -/
theorem Consistent.child_ok (h : t.Consistent) (hn : t.get? id = some n) (name : String)
    (hsingle : n.kind.isSingle name = true) : ∃ c?, t.child id name = .ok c? ∧ n.inSlot name = c?.toList := by
  unfold NodeKind.isSingle at hsingle
  cases hi : n.kind.slotIndex? name with
  | none => simp [hi] at hsingle
  | some i =>
    obtain ⟨s, hslot, hin, -, spec, hspec, hseq⟩ := h.slot_ok hn hi
    have harity : (spec.arity == .sequence) = false := by simpa [hi, hspec] using hsingle
    obtain ⟨c?, rfl⟩ := Slot.isSequence_eq_false (hseq.trans harity)
    exact ⟨c?, by rw [child, hslot]; rfl, hin⟩

theorem Consistent.childrenIn_ok (h : t.Consistent) (hn : t.get? id = some n) (name : String) {i : Nat}
    (hi : n.kind.slotIndex? name = some i) : t.childrenIn id name = .ok (n.inSlot name) := by
  obtain ⟨s, hslot, hin, -⟩ := h.slot_ok hn hi
  rw [childrenIn, hslot, hin]
  rfl

end Tree

/-- A required slot of a complete node is filled. -/
theorem checkForms_required {kind : NodeKind} : ∀ {specs : List SlotSpec} {slots : List Slot} {i : Nat}
    {spec : SlotSpec} {s : Slot}, checkForms kind specs slots = .ok () → specs[i]? = some spec → slots[i]? = some s →
    spec.arity = .required → ∃ c, s = .filled c
  | [], _, _, _, _, _, hspec, _, _ => by simp at hspec
  | _ :: _, [], _, _, _, _, _, hs, _ => by simp at hs
  | spec' :: specs, s' :: slots, i, spec, s, h, hspec, hs, hreq => by
    rw [checkForms] at h
    split at h
    · next hfits =>
      cases i with
      | zero =>
        obtain rfl : spec' = spec := by simpa using hspec
        obtain rfl : s' = s := by simpa using hs
        rw [hreq] at hfits
        rcases s' with (_ | c) | cs
        · cases hfits
        · exact ⟨c, rfl⟩
        · cases hfits
      | succ i => exact checkForms_required h (by simpa using hspec) (by simpa using hs) hreq
    · cases h

/-- Whether a kind has a slot with the given name that has to be filled. -/
def NodeKind.isRequired (kind : NodeKind) (name : String) : Bool :=
  ((kind.slotIndex? name).bind (kind.slots[·]?)).any fun spec => spec.arity == .required

theorem Tree.Consistent.required_ok {t : Tree} {id : NodeId} {n : Node} (h : t.Consistent) (hn : t.get? id = some n)
    (hcomplete : checkSlots n.kind n.slots = .ok ()) (name : String)
    (hreq : n.kind.isRequired name = true) : ∃ c, t.child id name = .ok (some c) ∧ n.inSlot name = [c] := by
  unfold NodeKind.isRequired at hreq
  cases hi : n.kind.slotIndex? name with
  | none => simp [hi] at hreq
  | some i =>
    obtain ⟨s, hslot, hin, hs, spec, hspec, -⟩ := h.slot_ok hn hi
    have harity : spec.arity = .required := by simpa [hi, hspec] using hreq
    have hforms : checkForms n.kind n.kind.slots n.slots = .ok () := by
      unfold checkSlots at hcomplete
      split at hcomplete
      · exact hcomplete
      · cases hcomplete
    obtain ⟨c, rfl⟩ := checkForms_required hforms hspec hs harity
    exact ⟨c, by rw [Tree.child, hslot]; rfl, hin⟩

/-! ## Calls -/

namespace Tree

variable {t : Tree} {id p : NodeId} {n : Node}

theorem Consistent.isParent_of_inSlot (h : t.Consistent) (hn : t.get? p = some n) {name : String}
    (hid : id ∈ n.inSlot name) : t.IsParent id p :=
  (h.isParent_iff hn).2 (Node.mem_children_of_inSlot hid)

/-- Different slots hold different nodes. -/
theorem Consistent.inSlot_disjoint (h : t.Consistent) (hn : t.get? p = some n) (name name' : String) {i j : Nat}
    (hi : n.kind.slotIndex? name = some i) (hj : n.kind.slotIndex? name' = some j) (hij : i ≠ j) {c : NodeId}
    (hc : c ∈ n.inSlot name) : c ∉ n.inSlot name' := by
  intro hc'
  obtain ⟨s, -, hs, hsi, -⟩ := h.slot_ok hn hi
  obtain ⟨s', -, hs', hsj, -⟩ := h.slot_ok hn hj
  rw [hs] at hc
  rw [hs'] at hc'
  have hpairwise := (List.nodup_flatMap.1 (h.nodup_children hn)).2
  rw [List.pairwise_iff_getElem] at hpairwise
  obtain ⟨hi', rfl⟩ := List.getElem?_eq_some_iff.1 hsi
  obtain ⟨hj', rfl⟩ := List.getElem?_eq_some_iff.1 hsj
  rcases Nat.lt_or_gt_of_ne hij with hlt | hgt
  · exact hpairwise i j hi' hj' hlt hc hc'
  · exact hpairwise j i hj' hi' hgt hc' hc

theorem Consistent.nodup_inSlot (h : t.Consistent) (hn : t.get? p = some n) (name : String) :
    (n.inSlot name).Nodup := by
  unfold Node.inSlot
  cases hs : (n.kind.slotIndex? name).bind (n.slots[·]?) with
  | none => simp
  | some s =>
    obtain ⟨i, -, hi⟩ := Option.bind_eq_some_iff.1 hs
    exact (List.nodup_flatMap.1 (h.nodup_children hn)).1 s (List.mem_of_getElem? hi)

/-- The keywords of a call as they stand in the tree: the pairs, their keys, and each name with its value. -/
inductive Keywords (t : Tree) : List NodeId → List NodeId → List (String × NodeId) → Prop where
  | nil : Keywords t [] [] []
  | cons {pair key value : NodeId} {name : String} {pairs keys : List NodeId} {keywords : List (String × NodeId)}
    (hkey : t.IsParent key pair) (hvalue : t.IsParent value pair) (hne : key ≠ value)
    (rest : Keywords t pairs keys keywords) :
    Keywords t (pair :: pairs) (key :: keys) ((name, value) :: keywords)

namespace Keywords

variable {pairs keys : List NodeId} {keywords : List (String × NodeId)}

theorem key_parent (h : Keywords t pairs keys keywords) {k : NodeId} (hk : k ∈ keys) : ∃ q ∈ pairs, t.IsParent k q := by
  induction h with
  | nil => cases hk
  | cons hkey _ _ _ ih =>
    rcases List.mem_cons.1 hk with rfl | hk
    · exact ⟨_, by simp, hkey⟩
    · obtain ⟨q, hq, hkq⟩ := ih hk
      exact ⟨q, List.mem_cons_of_mem _ hq, hkq⟩

theorem value_parent (h : Keywords t pairs keys keywords) {v : NodeId} (hv : v ∈ keywords.map (·.2)) :
    ∃ q ∈ pairs, t.IsParent v q := by
  induction h with
  | nil => cases hv
  | cons _ hvalue _ _ ih =>
    rcases List.mem_cons.1 hv with rfl | hv
    · exact ⟨_, by simp, hvalue⟩
    · obtain ⟨q, hq, hvq⟩ := ih hv
      exact ⟨q, List.mem_cons_of_mem _ hq, hvq⟩

theorem nodup_keys (h : Keywords t pairs keys keywords) (hpairs : pairs.Nodup) : keys.Nodup := by
  induction h with
  | nil => exact List.nodup_nil
  | cons hkey _ _ rest ih =>
    obtain ⟨hnot, hpairs⟩ := List.nodup_cons.1 hpairs
    refine List.nodup_cons.2 ⟨fun hmem => ?_, ih hpairs⟩
    obtain ⟨q, hq, hkq⟩ := rest.key_parent hmem
    exact hnot (hkey.unique hkq ▸ hq)

theorem nodup_values (h : Keywords t pairs keys keywords) (hpairs : pairs.Nodup) : (keywords.map (·.2)).Nodup := by
  induction h with
  | nil => exact List.nodup_nil
  | cons _ hvalue _ rest ih =>
    obtain ⟨hnot, hpairs⟩ := List.nodup_cons.1 hpairs
    refine List.nodup_cons.2 ⟨fun hmem => ?_, ih hpairs⟩
    obtain ⟨q, hq, hvq⟩ := rest.value_parent hmem
    exact hnot (hvalue.unique hvq ▸ hq)

theorem not_mem_keys (h : Keywords t pairs keys keywords) (hpairs : pairs.Nodup) {v : NodeId}
    (hv : v ∈ keywords.map (·.2)) : v ∉ keys := by
  induction h with
  | nil => cases hv
  | cons hkey hvalue hne rest ih =>
    obtain ⟨hnot, hpairs⟩ := List.nodup_cons.1 hpairs
    rw [List.mem_cons, not_or]
    rcases List.mem_cons.1 hv with rfl | hv
    · refine ⟨Ne.symm hne, fun hmem => ?_⟩
      obtain ⟨q, hq, hkq⟩ := rest.key_parent hmem
      exact hnot (hvalue.unique hkq ▸ hq)
    · refine ⟨?_, ih hpairs hv⟩
      rintro rfl
      obtain ⟨q, hq, hvq⟩ := rest.value_parent hv
      exact hnot (hkey.unique hvq ▸ hq)

theorem length_eq (h : Keywords t pairs keys keywords) :
    pairs.length = keywords.length ∧ keys.length = keywords.length := by
  induction h with
  | nil => exact ⟨rfl, rfl⟩
  | cons _ _ _ _ ih => exact ⟨by simp [ih.1], by simp [ih.2]⟩

end Keywords

section Nodes

variable {c q : NodeId} {keys : List NodeId} {keywords : List (String × NodeId)} (h : t.Consistent)
  (hn : t.get? p = some n)
include h hn

/-- What hangs below a pair of a node is neither the node nor one of its pairs. -/
theorem Consistent.notMem_of_pair (hq : q ∈ n.inSlot "pairs") (hc : t.IsParent c q) : c ∉ p :: n.inSlot "pairs" := by
  have hqp : t.IsParent q p := h.isParent_of_inSlot hn hq
  rw [List.mem_cons, not_or]
  refine ⟨?_, fun hcp => ?_⟩
  · rintro rfl
    exact h.acyclic c (.tail (.single hc) hqp)
  · exact h.ne_of_isParent hqp (hc.unique (h.isParent_of_inSlot hn hcp))

variable (hkeys : Keywords t (n.inSlot "pairs") keys keywords)
include hkeys

theorem Consistent.nodup_call : (p :: (n.inSlot "pairs" ++ keys)).Nodup := by
  have hpairs := h.nodup_inSlot hn "pairs"
  rw [← List.cons_append, List.nodup_append, List.nodup_cons]
  refine ⟨⟨fun hp => h.ne_of_isParent (h.isParent_of_inSlot hn hp) rfl, hpairs⟩, hkeys.nodup_keys hpairs, ?_⟩
  rintro x hx k hk rfl
  obtain ⟨q, hq, hkq⟩ := hkeys.key_parent hk
  exact h.notMem_of_pair hn hq hkq hx

/-- The call, its pairs and their keys hang together. -/
theorem Consistent.call_closed (hc : c ∈ p :: (n.inSlot "pairs" ++ keys)) :
    c = p ∨ ∃ q ∈ p :: (n.inSlot "pairs" ++ keys), t.IsParent c q := by
  simp only [List.mem_cons, List.mem_append] at hc
  rcases hc with rfl | hc | hc
  · exact .inl rfl
  · exact .inr ⟨p, by simp, h.isParent_of_inSlot hn hc⟩
  · obtain ⟨q, hq, hcq⟩ := hkeys.key_parent hc
    exact .inr ⟨q, by simp [hq], hcq⟩

theorem Consistent.notMem_of_positional (hkind : n.kind = .functionCall) (hc : c ∈ n.inSlot "positional_args") :
    c ∉ p :: (n.inSlot "pairs" ++ keys) := by
  have hcp : t.IsParent c p := h.isParent_of_inSlot hn hc
  rw [List.mem_cons, List.mem_append]
  rintro (rfl | hmem | hmem)
  · exact h.ne_of_isParent hcp rfl
  · exact h.inSlot_disjoint hn "positional_args" "pairs" (i := 1) (j := 2) (by rw [hkind]; decide)
      (by rw [hkind]; decide) (by decide) hc hmem
  · obtain ⟨q, hq, hcq⟩ := hkeys.key_parent hmem
    exact h.ne_of_isParent (h.isParent_of_inSlot hn hq) (hcq.unique hcp)

theorem Consistent.notMem_of_value (hc : c ∈ keywords.map (·.2)) : c ∉ p :: (n.inSlot "pairs" ++ keys) := by
  obtain ⟨q, hq, hcq⟩ := hkeys.value_parent hc
  rw [← List.cons_append, List.mem_append, not_or]
  exact ⟨h.notMem_of_pair hn hq hcq, hkeys.not_mem_keys (h.nodup_inSlot hn "pairs") hc⟩

/-- No argument is given twice. -/
theorem Consistent.nodup_arguments : (n.inSlot "positional_args" ++ keywords.map (·.2)).Nodup := by
  rw [List.nodup_append]
  refine ⟨h.nodup_inSlot hn _, hkeys.nodup_values (h.nodup_inSlot hn "pairs"), ?_⟩
  rintro a ha b hb rfl
  obtain ⟨q, hq, haq⟩ := hkeys.value_parent hb
  exact h.ne_of_isParent (h.isParent_of_inSlot hn hq) (haq.unique (h.isParent_of_inSlot hn ha))

end Nodes

theorem Consistent.readKeywords_ok (h : t.Consistent) : ∀ {pairs : List NodeId},
    (∀ pair ∈ pairs, ∃ m, t.get? pair = some m ∧ m.kind = .keyValuePair ∧ checkSlots m.kind m.slots = .ok ()) →
    ∃ keywords?, CallSite.readKeywords t pairs = .ok keywords? ∧
      ∀ keywords, keywords? = some keywords → ∃ keys, Keywords t pairs keys keywords
  | [], _ => ⟨some [], rfl, by rintro _ ⟨⟩; exact ⟨[], .nil⟩⟩
  | pair :: rest, hpairs => by
    obtain ⟨m, hm, hkind, hcomplete⟩ := hpairs pair (by simp)
    obtain ⟨key, hkey, hinkey⟩ := h.required_ok hm hcomplete "key" (by rw [hkind]; decide)
    obtain ⟨value, hvalue, hinvalue⟩ := h.required_ok hm hcomplete "value" (by rw [hkind]; decide)
    obtain ⟨keywords?, hrest, hmeans⟩ := h.readKeywords_ok fun q hq => hpairs q (List.mem_cons_of_mem pair hq)
    have hne : key ≠ value := by
      rintro rfl
      have hdis := h.inSlot_disjoint hm "key" "value" (i := 0) (j := 1) (c := key)
        (by rw [hkind]; decide) (by rw [hkind]; decide) (by decide) (by simp [hinkey])
      exact hdis (by simp [hinvalue])
    rw [CallSite.readKeywords, hkey, ok_bind, hvalue, ok_bind]
    split
    · next keyword value' _ hv =>
      cases hv
      refine ⟨keywords?.map ((keyword, value) :: ·), by rw [hrest]; rfl, fun keywords hk => ?_⟩
      obtain ⟨keywords', rfl, rfl⟩ := Option.map_eq_some_iff.1 hk
      obtain ⟨keys, hkeys⟩ := hmeans keywords' rfl
      exact ⟨key :: keys, .cons (h.isParent_of_inSlot hm (by rw [hinkey]; simp))
        (h.isParent_of_inSlot hm (by rw [hinvalue]; simp)) hne hkeys⟩
    · exact ⟨none, rfl, nofun⟩

end Tree

namespace Plan

open Specializer.Tree ReplaceM

variable {located : ModuleName → Prop} {P : Plan} {t : Tree} {call : NodeId} {n : Node} {site : CallSite}

/-- What is known about a call site that was read. -/
structure Reads (t : Tree) (call : NodeId) (n : Node) (variableId : VariableId) (name : String) (site : CallSite) :
    Prop where
  call : site.call = call
  variableId : site.variableId = variableId
  name : site.name = name
  positional : site.positional = n.inSlot "positional_args"
  keywords : ∃ keys, Keywords t (n.inSlot "pairs") keys site.keywords

theorem Fits.pairs_ok (h : P.Fits located t none) (hn : t.get? call = some n) (hin : P.Inside call) :
    ∀ pair ∈ n.inSlot "pairs", ∃ m, t.get? pair = some m ∧ m.kind = .keyValuePair ∧
      checkSlots m.kind m.slots = .ok () := by
  intro pair hpair
  have hmem := Node.mem_children_of_inSlot hpair
  obtain ⟨m, hm, -⟩ := h.built.consistent.held hn hmem
  exact ⟨m, hm, (h.good hn hin).pairs pair hpair m hm, (h.good hm (h.inside_child hn hin hmem)).complete⟩

/-- A call can be read. -/
theorem Fits.read_ok (h : P.Fits located t none) (hn : t.get? call = some n) (hin : P.Inside call)
    (hkind : n.kind = .functionCall) (v : VariableId) (name : String) :
    ∃ site?, CallSite.read t call v name = .ok site? ∧
      ∀ site, site? = some site → Reads t call n v name site := by
  have hc := h.built.consistent
  obtain ⟨star?, hstar, -⟩ := hc.child_ok hn "list_star_arg" (by rw [hkind]; decide)
  obtain ⟨dict?, hdict, -⟩ := hc.child_ok hn "dict_star_arg" (by rw [hkind]; decide)
  have hpairs := hc.childrenIn_ok hn "pairs" (i := 2) (by rw [hkind]; decide)
  have hpos := hc.childrenIn_ok hn "positional_args" (i := 1) (by rw [hkind]; decide)
  obtain ⟨keywords?, hread, hmeans⟩ := hc.readKeywords_ok (h.pairs_ok hn hin)
  rw [CallSite.read, hstar, ok_bind]
  split
  · exact ⟨none, rfl, nofun⟩
  rw [hdict, ok_bind]
  split
  · exact ⟨none, rfl, nofun⟩
  rw [hpairs, ok_bind, hread, ok_bind]
  cases keywords? with
  | none => exact ⟨none, rfl, nofun⟩
  | some keywords =>
    simp only [hpos, ok_bind, source_ok hn, except_pure]
    refine ⟨_, rfl, ?_⟩
    rintro site ⟨⟩
    exact ⟨rfl, rfl, rfl, rfl, hmeans keywords rfl⟩

/-- A call that can be given up: the nodes that go with it, and its arguments. -/
structure Opening (P : Plan) (t : Tree) (call : NodeId) (site : CallSite) (ids : List NodeId) : Prop where
  nodup : ids.Nodup
  mem : call ∈ ids
  closed : ∀ c ∈ ids, c = call ∨ ∃ q ∈ ids, t.IsParent c q
  level : ∀ c ∈ ids, P.level c ≤ P.level call
  arguments : site.arguments.Nodup
  movable : ∀ a ∈ site.arguments, a ∉ ids ∧ P.Inside a ∧ P.level a + 4 ≤ P.level call ∧
    (∀ s, P.scopes a s → P.scopes call s) ∧ ∃ q ∈ ids, t.IsParent a q
  credit : 7 + 2 * site.keywords.length ≤ (ids.map P.credit).sum

section Opening

variable {q c : NodeId} {keys : List NodeId} (h : P.Fits located t none) (hn : t.get? call = some n)
  (hin : P.Inside call) (hkind : n.kind = .functionCall) (hlow : ∀ c ∈ n.children, P.level c + 4 ≤ P.level call)
include h hn hin hkind hlow

/-- A child of a call can be moved to its place. -/
theorem Fits.below_call (hc : c ∈ n.children) :
    P.Inside c ∧ P.level c + 4 ≤ P.level call ∧ ∀ s, P.scopes c s → P.scopes call s := by
  have hscope : n.kind.isScope = false := by rw [hkind]; rfl
  exact ⟨h.inside_child hn hin hc, hlow c hc, fun _ => (h.child hn hin.1 hc).scopes_of_not_scope hscope⟩

/-- And so can what hangs below a pair. -/
theorem Fits.below_pair (hq : q ∈ n.inSlot "pairs") (hc : t.IsParent c q) :
    P.Inside c ∧ P.level c + 4 ≤ P.level call ∧ ∀ s, P.scopes c s → P.scopes call s := by
  obtain ⟨m, hm, hmkind, -⟩ := h.pairs_ok hn hin q hq
  obtain ⟨hqin, hlevel, hscopes⟩ := h.below_call hn hin hkind hlow (Node.mem_children_of_inSlot hq)
  have hcm : c ∈ m.children := (h.built.consistent.isParent_iff hm).1 hc
  have hu := h.child hm hqin.1 hcm
  have hmscope : m.kind.isScope = false := by rw [hmkind]; rfl
  have := hu.level
  exact ⟨h.inside_child hm hqin hcm, by omega, fun s hs => hscopes s (hu.scopes_of_not_scope hmscope hs)⟩

variable (hkeys : Keywords t (n.inSlot "pairs") keys site.keywords)
include hkeys

theorem Fits.level_call (hc : c ∈ call :: (n.inSlot "pairs" ++ keys)) : P.level c ≤ P.level call := by
  simp only [List.mem_cons, List.mem_append] at hc
  rcases hc with rfl | hc | hc
  · exact Nat.le_refl _
  · have := hlow c (Node.mem_children_of_inSlot hc)
    omega
  · obtain ⟨q, hq, hcq⟩ := hkeys.key_parent hc
    have := (h.below_pair hn hin hkind hlow hq hcq).2.1
    omega

theorem Fits.movable_arguments (hpositional : site.positional = n.inSlot "positional_args") (hc : c ∈ site.arguments) :
    c ∉ call :: (n.inSlot "pairs" ++ keys) ∧ P.Inside c ∧ P.level c + 4 ≤ P.level call ∧
      (∀ s, P.scopes c s → P.scopes call s) ∧ ∃ q ∈ call :: (n.inSlot "pairs" ++ keys), t.IsParent c q := by
  have hcons := h.built.consistent
  rw [CallSite.arguments, hpositional, List.mem_append] at hc
  rcases hc with hc | hc
  · obtain ⟨hcin, hlevel, hscopes⟩ := h.below_call hn hin hkind hlow (Node.mem_children_of_inSlot hc)
    exact ⟨hcons.notMem_of_positional hn hkeys hkind hc, hcin, hlevel, hscopes, call, by simp,
      hcons.isParent_of_inSlot hn hc⟩
  · obtain ⟨q, hq, hcq⟩ := hkeys.value_parent hc
    obtain ⟨hcin, hlevel, hscopes⟩ := h.below_pair hn hin hkind hlow hq hcq
    exact ⟨hcons.notMem_of_value hn hkeys hc, hcin, hlevel, hscopes, q, by simp [hq], hcq⟩

/-- Each pair and each key has at least one change on its account. -/
theorem Fits.credit_keywords : 2 * site.keywords.length ≤ ((n.inSlot "pairs" ++ keys).map P.credit).sum := by
  have hone : ∀ c ∈ (n.inSlot "pairs" ++ keys).map P.credit, 1 ≤ c := by
    refine List.forall_mem_map.2 fun x hx => ?_
    rcases List.mem_append.1 hx with hx | hx
    · obtain ⟨m, hm, -⟩ := h.pairs_ok hn hin x hx
      exact h.one_le_credit hm (h.inside_child hn hin (Node.mem_children_of_inSlot hx))
    · obtain ⟨q, hq, hxq⟩ := hkeys.key_parent hx
      obtain ⟨m, hm, -⟩ := parent?_eq_some_iff.1 hxq
      exact h.one_le_credit hm (h.below_pair hn hin hkind hlow hq hxq).1
  have hsum := List.length_le_sum_of_one_le _ hone
  obtain ⟨hpairs, hlength⟩ := hkeys.length_eq
  rw [List.length_map, List.length_append, hpairs, hlength] at hsum
  omega

end Opening

/-- A call of a builtin can be given up together with its pairs and their keys. -/
theorem Fits.opening {v : VariableId} {name : String} (h : P.Fits located t none) (hn : t.get? call = some n)
    (hin : P.Inside call) (hkind : n.kind = .functionCall) (hplain : ¬ t.IsMethodCall n)
    (hreads : Reads t call n v name site) : ∃ ids, Opening P t call site ids := by
  have hc := h.built.consistent
  obtain ⟨keys, hkeys⟩ := hreads.keywords
  obtain ⟨hcredit, hlow⟩ := ((h.good hn hin).call hkind).resolve_left hplain
  refine ⟨call :: (n.inSlot "pairs" ++ keys), ?_⟩
  constructor
  case nodup => exact hc.nodup_call hn hkeys
  case mem => exact List.mem_cons_self
  case closed => exact fun _ => hc.call_closed hn hkeys
  case level => exact fun _ => h.level_call hn hin hkind hlow hkeys
  case arguments =>
    rw [CallSite.arguments, hreads.positional]
    exact hc.nodup_arguments hn hkeys
  case movable => exact fun _ => h.movable_arguments hn hin hkind hlow hkeys hreads.positional
  case credit =>
    have := h.credit_keywords hn hin hkind hlow hkeys
    rw [List.map_cons, List.sum_cons]
    omega

end Plan

end Specializer
