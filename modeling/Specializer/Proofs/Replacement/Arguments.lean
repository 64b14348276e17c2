import Specializer.Proofs.Replacement.Builtins
import Specializer.Proofs.Replacement.Discarding
import Specializer.Proofs.Replacement.Gathering

/-!
# The arguments of a call

The arguments of a call in the order of their evaluation are the positional ones and then the values of the keywords
(`Tree.arguments`). A call site that was read has exactly these, and they can be taken out of the call
(`Consistent.read_eq_ok`).

A call that is bound to fail drops the arguments whose evaluation cannot be noticed and keeps the others
(`Gathered.keepObservable`).
-/

namespace Specializer.Tree

variable {t₀ t t' : Tree} {call hole id p x a : NodeId} {n : Node} {args : List NodeId} {site : CallSite}

/-! ## Reading a call -/

/-- The nodes in the slot of a node with a given name. -/
def inSlot (t : Tree) (id : NodeId) (name : String) : List NodeId := (t.get? id).elim [] (·.inSlot name)

theorem inSlot_of_get? (hn : t.get? id = some n) (name : String) : t.inSlot id name = n.inSlot name := by
  rw [inSlot, hn]
  rfl

/-- The arguments of a call in the order of their evaluation: the positional ones, then the values of the keywords. -/
def arguments (t : Tree) (call : NodeId) : List NodeId :=
  t.inSlot call "positional_args" ++ (t.inSlot call "pairs").flatMap fun pair => t.inSlot pair "value"

/-- Slots of different names have different positions. -/
theorem slotIndex?_inj {kind : NodeKind} {name name' : String} {i : Nat} (h : kind.slotIndex? name = some i)
    (h' : kind.slotIndex? name' = some i) : name = name' := by
  obtain ⟨hi, hname, -⟩ := List.findIdx?_eq_some_iff_getElem.1 h
  obtain ⟨hi', hname', -⟩ := List.findIdx?_eq_some_iff_getElem.1 h'
  exact (beq_iff_eq.1 hname).symm.trans (beq_iff_eq.1 hname')

theorem inSlot_of_child {name : String} {c : NodeId} (h : t.child id name = .ok (some c)) :
    ∃ n i, t.get? id = some n ∧ n.kind.slotIndex? name = some i ∧ n.inSlot name = [c] := by
  obtain ⟨n, i, hn, hi, hslot⟩ := child_eq_ok h
  exact ⟨n, i, hn, hi, by rw [Node.inSlot, hi, Option.bind_some, hslot]; rfl⟩

/-- Keywords that were read stand in the tree, with their values in order. -/
theorem Consistent.readKeywords_eq_ok (hc : t.Consistent) {keywords : List (String × NodeId)} :
    ∀ {pairs : List NodeId}, CallSite.readKeywords t pairs = .ok (some keywords) →
      keywords.map (·.2) = pairs.flatMap (t.inSlot · "value") ∧ ∃ keys, Keywords t pairs keys keywords := by
  intro pairs
  induction pairs generalizing keywords with
  | nil =>
    rintro ⟨⟩
    exact ⟨rfl, [], .nil⟩
  | cons pair rest ih =>
    intro h
    obtain ⟨key?, hkey, h⟩ := bind_eq_ok_iff.1 h
    obtain ⟨value?, hvalue, h⟩ := bind_eq_ok_iff.1 h
    split at h
    · next keyword value hname =>
      obtain ⟨rest?, hrest, h⟩ := bind_eq_ok_iff.1 h
      obtain ⟨key, rfl, -⟩ := Option.bind_eq_some_iff.1 hname
      cases rest? with
      | none => cases h
      | some keywords' =>
        cases h
        obtain ⟨hvalues, keys, hkeys⟩ := ih hrest
        obtain ⟨n, i, hn, hi, hinKey⟩ := inSlot_of_child hkey
        obtain ⟨n', j, hn', hj, hinValue⟩ := inSlot_of_child hvalue
        obtain rfl := Option.some.inj (hn.symm.trans hn')
        have hij : i ≠ j := by
          rintro rfl
          exact absurd (slotIndex?_inj hi hj) (by decide)
        have hne : key ≠ value := by
          rintro rfl
          exact hc.inSlot_disjoint hn "key" "value" hi hj hij (c := key) (by simp [hinKey]) (by simp [hinValue])
        refine ⟨?_, key :: keys, .cons ?_ ?_ hne hkeys⟩
        · simp [hvalues, inSlot_of_get? hn, hinValue]
        · exact hc.isParent_of_inSlot hn (show key ∈ n.inSlot "key" by simp [hinKey])
        · exact hc.isParent_of_inSlot hn (show value ∈ n.inSlot "value" by simp [hinValue])
    · cases h

/-- **The arguments of a call that was read** are those that stand in the tree, and they can be taken out. -/
theorem Consistent.read_eq_ok {v : VariableId} {name : String} (hc : t.Consistent) (hn : t.get? call = some n)
    (hkind : n.kind = .functionCall) (h : CallSite.read t call v name = .ok (some site)) :
    site.arguments = t.arguments call ∧ t.Arguments call site.arguments := by
  obtain ⟨star?, -, h⟩ := bind_eq_ok_iff.1 h
  split at h
  · cases h
  obtain ⟨dict?, -, h⟩ := bind_eq_ok_iff.1 h
  split at h
  · cases h
  rw [hc.childrenIn_ok hn "pairs" (i := 2) (by rw [hkind]; decide), ok_bind] at h
  obtain ⟨keywords?, hkeywords, h⟩ := bind_eq_ok_iff.1 h
  cases keywords? with
  | none => cases h
  | some keywords =>
  dsimp only at h
  rw [hc.childrenIn_ok hn "positional_args" (i := 1) (by rw [hkind]; decide), ok_bind, ReplaceM.source_ok hn] at h
  cases h
  obtain ⟨hvalues, keys, hkeys⟩ := hc.readKeywords_eq_ok hkeywords
  have hpairs := hc.nodup_inSlot hn "pairs"
  have hpositional {a : NodeId} (ha : a ∈ n.inSlot "positional_args") : t.IsParent a call := hc.isParent_of_inSlot hn ha
  have hpair {q : NodeId} (hq : q ∈ n.inSlot "pairs") : t.IsParent q call := hc.isParent_of_inSlot hn hq
  have hpairNe {q : NodeId} (hq : q ∈ n.inSlot "pairs") : q ≠ call := hc.ne_of_isParent (hpair hq)
  -- an argument hangs below the call directly, or below one of its pairs
  have hholder {a : NodeId} (ha : a ∈ n.inSlot "positional_args" ++ keywords.map (·.2)) :
      t.IsParent a call ∧ a ∉ n.inSlot "pairs" ∨ ∃ q ∈ n.inSlot "pairs", t.IsParent a q := by
    rcases List.mem_append.1 ha with ha | ha
    · exact .inl ⟨hpositional ha, hc.inSlot_disjoint hn "positional_args" "pairs" (i := 1) (j := 2)
        (by rw [hkind]; decide) (by rw [hkind]; decide) (by decide) ha⟩
    · exact .inr (hkeys.value_parent ha)
  have hbelow {a : NodeId} (ha : a ∈ n.inSlot "positional_args" ++ keywords.map (·.2)) : t.StrictlyBelow a call := by
    rcases hholder ha with ⟨hcall, -⟩ | ⟨q, hq, haq⟩
    · exact .single hcall
    · exact .tail (.single haq) (hpair hq)
  have hcycle {b : NodeId} (hb : b ∈ n.inSlot "positional_args" ++ keywords.map (·.2)) : ¬ t.Below call b :=
    fun hcb => hc.acyclic call (.trans_right hcb (hbelow hb))
  refine ⟨?_, ⟨n, hn⟩, ?_, fun a ha => hbelow ha, fun a ha b hb hab => ?_⟩
  · simp only [CallSite.arguments, arguments, inSlot_of_get? hn, hvalues]
  · refine List.nodup_append.2 ⟨hc.nodup_inSlot hn _, hkeys.nodup_values hpairs, ?_⟩
    rintro a ha b hb rfl
    obtain ⟨q, hq, haq⟩ := hkeys.value_parent hb
    exact hpairNe hq (haq.unique (hpositional ha))
  · rcases Relation.ReflTransGen.cases_head hab with rfl | ⟨p, hap, hpb⟩
    · rfl
    rcases hholder ha with ⟨hcall, -⟩ | ⟨q, hq, haq⟩
    · exact absurd (hap.unique hcall ▸ hpb) (hcycle hb)
    obtain rfl := hap.unique haq
    rcases Relation.ReflTransGen.cases_head hpb with rfl | ⟨p', hpp, hpb⟩
    · -- a pair is no argument
      rcases hholder hb with ⟨-, hnot⟩ | ⟨q', hq', hbq⟩
      · exact absurd hq hnot
      · exact absurd (hbq.unique (hpair hq)) (hpairNe hq')
    · exact absurd (hpp.unique (hpair hq) ▸ hpb) (hcycle hb)

/-- The arguments can be taken out of what the call makes up as well. -/
theorem Arguments.above (h : t.Arguments call args) (hn : t.get? hole = some n) (hcall : t.IsParent call hole) :
    t.Arguments hole args :=
  ⟨⟨n, hn⟩, h.nodup, fun a ha => .tail (h.below a ha) hcall, h.apart⟩

/-! ## Arguments whose evaluation can be noticed -/

/-- The members of a list that may have side effects or may raise. -/
def observable (t : Tree) (ids : List NodeId) : List NodeId :=
  ids.filter fun id => t.mayHaveSideEffects id = .ok true ∨ t.mayRaise id = .ok true

theorem Consistent.isObservable_iff (hc : t.Consistent) (hn : t.get? id = some n) :
    t.isObservable id = .ok true ↔ t.mayHaveSideEffects id = .ok true ∨ t.mayRaise id = .ok true := by
  obtain ⟨effects, heffects⟩ := hc.anyOperand_ok (·.capabilities.sideEffects) hn
  have heffects : t.mayHaveSideEffects id = .ok effects := heffects
  rw [isObservable, heffects, ok_bind]
  cases effects <;> simp

/-- Of some arguments, those that cannot be noticed were torn down. -/
structure Sifted (t₀ : Tree) (hole : NodeId) (args : List NodeId) (t : Tree) (ids kept : List NodeId) (t' : Tree) :
    Prop where
  gathered : Gathered t₀ hole args [] t'
  choice : kept = t₀.observable ids
  size : t'.nodes.size = t.nodes.size
  gone : ∀ a ∈ ids, a ∉ kept → ∀ x, t₀.Below x a → t'.get? x = none
  stale : ∀ x, x.index < t.nodes.size → t.get? x = none → t'.get? x = none

/-- Arguments are noticed when they are taken out exactly if they were noticed in their call. -/
theorem Gathered.keepObservable : ∀ {ids kept : List NodeId} {t : Tree}, Gathered t₀ hole args ids t →
    t.nodes.size = t₀.nodes.size → TreeM.keepObservable ids t = .ok kept t' → Sifted t₀ hole args t ids kept t'
  | [], _, t, h, _, hrun => by
    cases hrun
    exact ⟨h, rfl, rfl, by simp, fun _ _ hx => hx⟩
  | a :: rest, kept, t, h, hsize, hrun => by
    obtain ⟨b, t₁, hdetach, hrun⟩ := run_bind_eq_ok_iff.1 hrun
    obtain ⟨rfl, h₁, hlater, hsize₁, n, hn⟩ := h.detach hdetach
    have hb : b ∈ args := h.waiting.subset (by simp)
    obtain ⟨n₀, -, hn₀, -⟩ := (h₁.intact hb hn).node
    have hsame := (h₁.intact hb hn).isObservable h.origin (hsize₁.trans hsize)
    obtain ⟨noticed, hnoticed⟩ := h.origin.isObservable_ok hn₀
    have hquery : TreeM.query (·.isObservable b) t₁ = .ok noticed t₁ := run_query_ok (hsame.trans hnoticed)
    have hchoice := h.origin.isObservable_iff hn₀
    rw [hnoticed] at hchoice
    rw [run_bind_of_ok hquery] at hrun
    cases noticed with
    | true =>
      obtain ⟨kept', t₂, hrest, hrun⟩ := run_bind_eq_ok_iff.1 hrun
      cases hrun
      have hs := h₁.keepObservable (hsize₁.trans hsize) hrest
      refine ⟨hs.gathered, ?_, hs.size.trans hsize₁, fun c hc hcnot => ?_, fun x hx hnone => ?_⟩
      · rw [observable, List.filter_cons_of_pos (by simpa using hchoice.1 rfl), hs.choice, observable]
      · rw [List.mem_cons, not_or] at hcnot
        exact hs.gone c ((List.mem_cons.1 hc).resolve_left hcnot.1) hcnot.2
      · exact hs.stale x (hsize₁ ▸ hx) (hlater.stale hx hnone)
    | false =>
      obtain ⟨⟨⟩, t₂, hfinalize, hrun⟩ := run_bind_eq_ok_iff.1 hrun
      obtain ⟨h₂, hsize₂, hgone, hstale⟩ := h₁.finalize hb hfinalize
      have hs := h₂.keepObservable (hsize₂.trans (hsize₁.trans hsize)) hrun
      refine ⟨hs.gathered, ?_, hs.size.trans (hsize₂.trans hsize₁), fun c hc hcnot x hx => ?_, fun x hx hnone => ?_⟩
      · rw [observable, List.filter_cons_of_neg (by simpa using mt hchoice.2 (by simp)), hs.choice, observable]
      · rcases List.mem_cons.1 hc with rfl | hc
        · refine hs.stale x ?_ (hgone x hx)
          rw [hsize₂, hsize₁, hsize]
          exact h.arguments.below_lt hb hx
        · exact hs.gone c hc hcnot x hx
      · refine hs.stale x ?_ (hstale x (hlater.stale hx hnone))
        rw [hsize₂, hsize₁]
        exact hx

end Specializer.Tree
