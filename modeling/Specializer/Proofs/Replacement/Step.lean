import Specializer.Proofs.Replacement.Plan

/-!
# Steps of a replacement

A replacement gives nodes up, takes their arguments out, makes new nodes over them, and puts the last one in the place of
the first node given up. `Plan.Ready` is the state in between; each step leads from one such state to the next:

* `Ready.ofFits` gives nodes up and frees their accounts;
* `Ready.detach`, `Ready.make` and `Ready.tearDown` take an argument out, make a node and drop an argument;
* `Ready.finish` fills the hole, after which the plan fits without one.
-/

namespace Specializer.Plan

open Specializer.Tree

variable {located : ModuleName → Prop} {P : Plan} {t t' : Tree} {hole : Option NodeId}

/-! ## Nodes that stay in order -/

/-- A node stays in order when its slots are edited and its children renamed by `f`, if those of a kind that matters keep
it and the plan still says the same about them. -/
theorem Good.transfer {P' : Plan} {x : NodeId} {n n' : Node} {r : Slot → Slot} {f : NodeId → NodeId}
    (g : P.Good located t x n) (hkind : n'.kind = n.kind) (hpayload : n'.payload = n.payload)
    (hslots : n'.slots = n.slots.map r) (hfits : ∀ s a, s.fits a = true → (r s).fits a = true)
    (hids : ∀ s, (r s).ids = s.ids.map f)
    (hmarked : ∀ c ∈ n.children, ∃ m, t.get? c = some m ∧ (m.kind = .keyValuePair ∨ m.kind = .attributeLookup →
      ∃ m', t'.get? (f c) = some m' ∧ m'.kind = m.kind))
    (hbind : ∀ (i : Nat) (b : Variable), t.bindings[i]? = some b → ∃ b', t'.bindings[i]? = some b' ∧ b'.owner = b.owner)
    (hscopes : P'.scopes x = P.scopes x) (hcredit : P'.credit x = P.credit x)
    (hlevel : ∀ c ∈ n.children, P.level c + 4 ≤ P.level x → P'.level (f c) + 4 ≤ P'.level x) :
    P'.Good located t' x n' where
  complete := by
    rw [hkind, hslots]
    exact checkSlots_map hfits g.complete
  pairs c hc m' hm' := by
    rw [Node.inSlot_map hkind hslots hids rfl] at hc
    obtain ⟨c₀, hc₀, rfl⟩ := List.mem_map.1 hc
    obtain ⟨m, hm, hkeeps⟩ := hmarked c₀ (Node.mem_children_of_inSlot hc₀)
    have hpair := g.pairs c₀ hc₀ m hm
    obtain ⟨m'', hm'', hk⟩ := hkeeps (.inl hpair)
    obtain rfl : m' = m'' := Option.some.inj (hm'.symm.trans hm'')
    exact hk.trans hpair
  owner hvar v hv := by
    obtain ⟨b, hb, hs⟩ := g.owner (hkind ▸ hvar) v (hpayload ▸ hv)
    obtain ⟨b', hb', howner⟩ := hbind _ _ hb
    refine ⟨b', hb', ?_⟩
    rw [hscopes, howner]
    exact hs
  located := by
    rw [hpayload]
    exact g.located
  funded := by
    rw [hkind, hcredit]
    exact g.funded
  call hcall := by
    rcases g.call (hkind ▸ hcall) with ⟨a, ha, m, hm, hattr⟩ | ⟨hpaid, hlow⟩
    · obtain ⟨m₀, hm₀, hkeeps⟩ := hmarked a (Node.mem_children_of_inSlot ha)
      obtain rfl : m₀ = m := Option.some.inj (hm₀.symm.trans hm)
      obtain ⟨m', hm', hk⟩ := hkeeps (.inr hattr)
      refine .inl ⟨f a, ?_, m', hm', hk.trans hattr⟩
      rw [Node.inSlot_map hkind hslots hids rfl]
      exact List.mem_map_of_mem ha
    · refine .inr ⟨hcredit ▸ hpaid, fun c hc => ?_⟩
      rw [Node.children_map hslots hids] at hc
      obtain ⟨c₀, hc₀, rfl⟩ := List.mem_map.1 hc
      exact hlevel c₀ hc₀ (hlow c₀ hc₀)

/-! ## Changes that take things away -/

/-- A plan still fits after nodes were removed, taken out of nodes that are given up, or written to without a change of
what they are. -/
theorem Fits.of_shrink (h : P.Fits located t hole) (hbuilt : t'.Built) (hroot : t'.root = t.root)
    (hnode : ∀ x n', t'.get? x = some n' → ∃ n, t.get? x = some n ∧ n'.kind = n.kind ∧ n'.payload = n.payload ∧
      (∀ c ∈ n'.children, c ∈ n.children) ∧ (P.Inside x → n'.slots = n.slots ∨ P.Good located t' x n'))
    (hbind : ∀ (i : Nat) (b : Variable), t.bindings[i]? = some b → ∃ b', t'.bindings[i]? = some b' ∧ b'.owner = b.owner) :
    P.Fits located t' hole where
  built := hbuilt
  root := by
    obtain ⟨r, hr, hin, hnone⟩ := h.root
    exact ⟨r, hroot.trans hr, hin, hnone⟩
  child {x n' c} hn' hx hc := by
    obtain ⟨n, hn, hkind, -, hsub, -⟩ := hnode x n' hn'
    obtain ⟨hk, hl, hs⟩ := h.child hn hx (hsub c hc)
    exact ⟨hk, hl, fun s hs' => hkind ▸ hs s hs'⟩
  hole {x n' c} hn' hx hc hspent := by
    obtain ⟨n, hn, -, -, hsub, -⟩ := hnode x n' hn'
    exact h.hole hn hx (hsub c hc) hspent
  good {x n'} hn' hx := by
    obtain ⟨n, hn, hkind, hpayload, hsub, hslots⟩ := hnode x n' hn'
    rcases hslots hx with hslots | hgood
    · have hchildren : n'.children = n.children := by simp only [Node.children, hslots]
      refine (h.good hn hx).transfer (r := id) (f := id) hkind hpayload (by simpa using hslots) (fun _ _ => id)
        (by simp) (fun c hc => ?_) hbind rfl rfl fun _ _ => id
      obtain ⟨m', hm', -⟩ := hbuilt.consistent.held hn' (hchildren ▸ hc)
      obtain ⟨m, hm, hk, -⟩ := hnode c m' hm'
      exact ⟨m, hm, fun _ => ⟨m', hm', hk⟩⟩
    · exact hgood

/-- A plan still fits after a child was taken out of a node that is given up. -/
theorem Fits.taken {q a : NodeId} {nq : Node} (h : P.Fits located t hole) (hbuilt : t'.Built) (hnq : t.get? q = some nq)
    (hspent : P.spent q) (hr : Relinked t t' q (nq.slots.map (Slot.without a)) none (some a)) :
    P.Fits located t' hole := by
  refine h.of_shrink hbuilt hr.root (fun x n' hn' => ?_) fun i b hb => ⟨b, by rw [hr.bindings, hb], rfl⟩
  obtain ⟨n, hn, rfl⟩ := hr.get?_eq_some hn'
  refine ⟨n, hn, rfl, rfl, fun c hc => ?_, fun hx => .inl ?_⟩
  · by_cases hxq : x = q
    · subst hxq
      obtain rfl := Option.some.inj (hnq.symm.trans hn)
      simp only [Node.children, if_true, flatMap_without] at hc
      exact (List.mem_filter.1 hc).1
    · simpa [Node.children, hxq] using hc
  · have hxq : x ≠ q := fun e => hx.2 (e ▸ hspent)
    exact if_neg hxq

/-- A plan still fits after nodes were torn down. -/
theorem Fits.erase {ids : List NodeId} (h : P.Fits located t hole) (hbuilt : (t.erase ids).Built) :
    P.Fits located (t.erase ids) hole :=
  h.of_shrink hbuilt rfl
    (fun _ n' hn' => ⟨n', get?_of_get?_erase hn', rfl, rfl, fun _ => id, fun _ => .inl rfl⟩) fun _ b hb => ⟨b, hb, rfl⟩

/-- What comes and goes below the level that counts changes nothing above. -/
theorem keeps_of_relinked {parent : NodeId} {slots : List Slot} {added removed : Option NodeId} {b : Nat}
    (hr : Relinked t t' parent slots added removed) (hadded : ∀ c, added = some c → P.level c < b)
    (hremoved : ∀ c, removed = some c → P.level c < b) : Keeps b P t P t' := by
  refine ⟨hr.root, fun {x n} hn _ hle => ⟨⟨if x = parent then slots else n.slots, ?_⟩, rfl, rfl⟩⟩
  have ha : added ≠ some x := fun e => Nat.not_lt.2 hle (hadded x e)
  have hrem : removed ≠ some x := fun e => Nat.not_lt.2 hle (hremoved x e)
  rw [hr.get?, hn]
  simp [ha, hrem]

theorem Fits.keeps_erase {a : NodeId} {ids : List NodeId} {b : Nat} (h : P.Fits located t hole) (ha : P.known a)
    (hmem : ∀ x, x ∈ ids ↔ t.Below x a) (hlow : P.level a < b) : Keeps b P t P (t.erase ids) := by
  refine ⟨rfl, fun {x n} hn _ hle => ⟨⟨n.slots, ?_⟩, rfl, rfl⟩⟩
  have hx : x ∉ ids := fun hx => by
    have := (h.known_of_below ha ((hmem x).1 hx)).2
    omega
  rw [get?_erase_of_notMem hx, hn]

/-! ## New nodes -/

/-- The kinds of all nodes are as they were. -/
def SameKinds (t t' : Tree) : Prop := ∀ x n, t.get? x = some n → ∃ n', t'.get? x = some n' ∧ n'.kind = n.kind

theorem SameKinds.trans {t t' t'' : Tree} (h : SameKinds t t') (h' : SameKinds t' t'') : SameKinds t t'' := by
  intro x n hn
  obtain ⟨n', hn', hk⟩ := h x n hn
  obtain ⟨n'', hn'', hk'⟩ := h' x n' hn'
  exact ⟨n'', hn'', hk'.trans hk⟩

theorem sameKinds_of_relinked {parent : NodeId} {slots : List Slot} {added removed : Option NodeId}
    (hr : Relinked t t' parent slots added removed) : SameKinds t t' := by
  intro x n hn
  rw [hr.get?, hn]
  exact ⟨_, rfl, rfl⟩

theorem sameKinds_addNode (t : Tree) (kind : NodeKind) (source : SourceRef) (payload : Payload) (slots : List Slot) :
    SameKinds t (t.addNode kind source payload slots) := by
  intro x n hn
  obtain ⟨p, hp⟩ := exists_get?_addNode hn
  exact ⟨_, hp, rfl⟩

/-- The plan with a new node in the place of the hole or below it. -/
def add (P : Plan) (new hole : NodeId) (level credit : Nat) : Plan where
  known x := x = new ∨ P.known x
  spent x := x ≠ new ∧ P.spent x
  scopes x := if x = new then P.scopes hole else P.scopes x
  level x := if x = new then level else P.level x
  credit x := if x = new then credit else P.credit x

section Add

variable {new h x : NodeId} {level credit : Nat}

@[simp] theorem add_level_self : (P.add new h level credit).level new = level := if_pos rfl

@[simp] theorem add_scopes_self : (P.add new h level credit).scopes new = P.scopes h := if_pos rfl

@[simp] theorem add_credit_self : (P.add new h level credit).credit new = credit := if_pos rfl

theorem add_level_of_ne (hx : x ≠ new) : (P.add new h level credit).level x = P.level x := if_neg hx

theorem add_scopes_of_ne (hx : x ≠ new) : (P.add new h level credit).scopes x = P.scopes x := if_neg hx

theorem add_credit_of_ne (hx : x ≠ new) : (P.add new h level credit).credit x = P.credit x := if_neg hx

theorem add_inside_of_ne (hx : x ≠ new) : (P.add new h level credit).Inside x ↔ P.Inside x := by
  simp [Inside, add, hx]

end Add

/-- What a new node needs to be in order. -/
structure Makes (located : ModuleName → Prop) (P : Plan) (t : Tree) (hole : NodeId) (kind : NodeKind)
    (payload : Payload) (slots : List Slot) (level credit : Nat) : Prop where
  makes : t.Makes kind payload slots
  child : ∀ c ∈ slots.flatMap Slot.ids, P.Inside c ∧ P.level c < level ∧ ∀ s, P.scopes c s → P.scopes hole s
  pairs : ∀ source, ∀ c ∈ Node.inSlot { kind, source, payload, slots } "pairs", ∀ m, t.get? c = some m →
    m.kind = .keyValuePair
  plain : kind ≠ .variableRef
  located : ∀ spec, payload = .hardImport spec → located spec.module
  funded : kind.changes ≤ credit
  call : kind = .functionCall → ∀ source, t.IsMethodCall { kind, source, payload, slots }

section NewNode

variable {hole x c : NodeId} {n n' : Node} {kind : NodeKind} {payload : Payload} {slots : List Slot} {level credit : Nat}
  {source : SourceRef}

namespace Makes

theorem ne_nextId (hm : P.Makes located t hole kind payload slots level credit) (hc : c ∈ slots.flatMap Slot.ids) :
    c ≠ t.nextId :=
  (hm.makes.loose c hc).ne_nextId

theorem under_new (hm : P.Makes located t hole kind payload slots level credit) (n' : Node)
    (hc : c ∈ slots.flatMap Slot.ids) : (P.add t.nextId hole level credit).Under t.nextId n' c := by
  obtain ⟨hin, hlevel, hscopes⟩ := hm.child c hc
  refine ⟨.inr hin.1, ?_, fun s hs => .inl ?_⟩
  · rw [add_level_of_ne (hm.ne_nextId hc), add_level_self]
    exact hlevel
  · rw [add_scopes_of_ne (hm.ne_nextId hc)] at hs
    rw [add_scopes_self]
    exact hscopes s hs

theorem good_new (hm : P.Makes located t hole kind payload slots level credit) (source : SourceRef) :
    (P.add t.nextId hole level credit).Good located (t.addNode kind source payload slots) t.nextId
      { kind, source, payload, slots } where
  complete := hm.makes.complete
  pairs c hc m' hm' := by
    obtain ⟨m, hmc, hk, -⟩ := hm.makes.old (hm.ne_nextId (Node.mem_children_of_inSlot hc)) hm'
    exact hk.trans (hm.pairs source c hc m hmc)
  owner hvar := absurd hvar hm.plain
  located := hm.located
  funded := by
    rw [add_credit_self]
    exact hm.funded
  call hcall := by
    obtain ⟨a, ha, m, hma, hattr⟩ := hm.call hcall source
    obtain ⟨m', hm', hk⟩ := sameKinds_addNode t kind source payload slots a m hma
    exact .inl ⟨a, ha, m', hm', hk.trans hattr⟩

end Makes

/-- The children of the old nodes agree with them as before. -/
theorem Fits.under_old (h : P.Fits located t (some hole)) (hn : t.get? x = some n) (hx : P.known x)
    (hkind : n'.kind = n.kind) (hc : c ∈ n.children) : (P.add t.nextId hole level credit).Under x n' c := by
  obtain ⟨m, hm, -⟩ := h.built.consistent.held hn hc
  obtain ⟨hknown, hlevel, hscopes⟩ := h.child hn hx hc
  have hxn := ne_nextId_of_get? hn
  have hcn := ne_nextId_of_get? hm
  refine ⟨.inr hknown, ?_, fun s hs => ?_⟩
  · rw [add_level_of_ne hcn, add_level_of_ne hxn]
    exact hlevel
  · rw [add_scopes_of_ne hcn] at hs
    rw [add_scopes_of_ne hxn, hkind]
    exact hscopes s hs

/-- The old nodes are in order as before. -/
theorem Fits.good_old (h : P.Fits located t (some hole)) (hn : t.get? x = some n) (hx : P.Inside x)
    (hkind : n'.kind = n.kind) (hpayload : n'.payload = n.payload) (hslots : n'.slots = n.slots) :
    (P.add t.nextId hole level credit).Good located (t.addNode kind source payload slots) x n' := by
  have hxn := ne_nextId_of_get? hn
  have hlive {c : NodeId} (hc : c ∈ n.children) : ∃ m, t.get? c = some m :=
    (h.built.consistent.held hn hc).imp fun _ => And.left
  refine (h.good hn hx).transfer (r := id) (f := id) hkind hpayload (by simpa using hslots) (fun _ _ => id) (by simp)
    (fun c hc => ?_) (fun i b hb => ⟨b, by simpa using hb, rfl⟩) (add_scopes_of_ne hxn) (add_credit_of_ne hxn)
    fun c hc hlow => ?_
  · obtain ⟨m, hm⟩ := hlive hc
    exact ⟨m, hm, fun _ => sameKinds_addNode t kind source payload slots c m hm⟩
  · obtain ⟨m, hm⟩ := hlive hc
    rw [id, add_level_of_ne (ne_nextId_of_get? hm), add_level_of_ne hxn]
    exact hlow

/-- The plan fits a tree with a new node. -/
theorem Fits.add (h : P.Fits located t (some hole)) (hm : P.Makes located t hole kind payload slots level credit)
    (source : SourceRef) (hbuilt : (t.addNode kind source payload slots).Built) :
    (P.add t.nextId hole level credit).Fits located (t.addNode kind source payload slots) (some hole) where
  built := hbuilt
  root := by
    obtain ⟨r, hr, hin, hnone⟩ := h.root
    obtain ⟨n, hn, -⟩ := h.built.consistent.root hr
    have hrn := ne_nextId_of_get? hn
    refine ⟨r, by simpa using hr, (add_inside_of_ne hrn).2 hin, ?_⟩
    rwa [add_scopes_of_ne hrn]
  child {x n' c} hn' hx hc := by
    by_cases hxn : x = t.nextId
    · subst hxn
      obtain rfl := Option.some.inj ((get?_addNode_nextId kind source payload slots t).symm.trans hn')
      exact hm.under_new _ hc
    · obtain ⟨n, hn, hkind, -, hslots⟩ := hm.makes.old hxn hn'
      exact h.under_old hn (hx.resolve_left hxn) hkind (by simpa only [Node.children, hslots] using hc)
  hole {x n' c} hn' hx hc hspent := by
    by_cases hxn : x = t.nextId
    · subst hxn
      obtain rfl := Option.some.inj ((get?_addNode_nextId kind source payload slots t).symm.trans hn')
      exact absurd hspent.2 (hm.child c hc).1.2
    · obtain ⟨n, hn, -, -, hslots⟩ := hm.makes.old hxn hn'
      exact h.hole hn ((add_inside_of_ne hxn).1 hx) (by simpa only [Node.children, hslots] using hc) hspent.2
  good {x n'} hn' hx := by
    by_cases hxn : x = t.nextId
    · subst hxn
      obtain rfl := Option.some.inj ((get?_addNode_nextId kind source payload slots t).symm.trans hn')
      exact hm.good_new source
    · obtain ⟨n, hn, hkind, hpayload, hslots⟩ := hm.makes.old hxn hn'
      exact h.good_old hn ((add_inside_of_ne hxn).1 hx) hkind hpayload hslots

end NewNode

/-! ## The state in between -/

/-- An argument of a node that is given up, still in its place. -/
structure Movable (P : Plan) (t : Tree) (hole a : NodeId) : Prop where
  inside : P.Inside a
  level : P.level a + 4 ≤ P.level hole
  scopes : ∀ s, P.scopes a s → P.scopes hole s
  parent : ∃ q, t.IsParent a q ∧ P.spent q

/-- A node that is ready to stand in the place of the hole or below. -/
structure Free (P : Plan) (t : Tree) (hole a : NodeId) : Prop where
  inside : P.Inside a
  level : P.level a ≤ P.level hole
  scopes : ∀ s, P.scopes a s → P.scopes hole s
  loose : t.Loose a

section NewNode

variable {hole a x p : NodeId} {kind : NodeKind} {payload : Payload} {slots : List Slot} {level credit : Nat}
  {source : SourceRef}

theorem Makes.keeps (hm : P.Makes located t hole kind payload slots level credit) (source : SourceRef) (b : Nat) :
    Keeps b P t (P.add t.nextId hole level credit) (t.addNode kind source payload slots) := by
  refine ⟨root_addNode kind source payload slots t, fun {x n} hn hx _ => ?_⟩
  have hxn := ne_nextId_of_get? hn
  refine ⟨⟨n.slots, get?_addNode_of_get? hm.makes hn ?_⟩, add_level_of_ne hxn, add_scopes_of_ne hxn⟩
  obtain ⟨r, hr, hb⟩ := hx
  rcases Relation.ReflTransGen.cases_head hb with rfl | ⟨y, hp, -⟩
  · exact .inr hr
  · rw [IsParent, parent?_of_get? hn] at hp
    exact .inl (by simp [hp])

theorem Movable.add (ha : P.Movable t hole a) (hm : P.Makes located t hole kind payload slots level credit)
    (hc : t.Consistent) (hhole : hole ≠ t.nextId) :
    (P.add t.nextId hole level credit).Movable (t.addNode kind source payload slots) hole a := by
  obtain ⟨hin, hlevel, hscopes, q, hq, hspent⟩ := ha
  obtain ⟨nq, hnq, -⟩ := hc.parent_live hq
  have han := hq.ne_nextId
  refine ⟨(add_inside_of_ne han).2 hin, ?_, ?_, q, hm.makes.isParent hq, ne_nextId_of_get? hnq, hspent⟩
  · rwa [add_level_of_ne han, add_level_of_ne hhole]
  · rwa [add_scopes_of_ne han, add_scopes_of_ne hhole]

/-- A free node that is not used stays free. -/
theorem Free.add (ha : P.Free t hole a) (hnot : a ∉ slots.flatMap Slot.ids) (hhole : hole ≠ t.nextId) :
    (P.add t.nextId hole level credit).Free (t.addNode kind source payload slots) hole a := by
  obtain ⟨hin, hlevel, hscopes, ⟨n, hn, hnp⟩, hroot⟩ := ha
  have han := ne_nextId_of_get? hn
  refine ⟨(add_inside_of_ne han).2 hin, ?_, ?_, ⟨n, ?_, hnp⟩, by rwa [root_addNode]⟩
  · rwa [add_level_of_ne han, add_level_of_ne hhole]
  · rwa [add_scopes_of_ne han, add_scopes_of_ne hhole]
  · rw [get?_addNode_of_ne _ _ _ _ t han, if_neg hnot, hn]

theorem free_new (hc : t.Consistent) (hlevel : level ≤ P.level hole) (hhole : hole ≠ t.nextId) :
    (P.add t.nextId hole level credit).Free (t.addNode kind source payload slots) hole t.nextId where
  inside := ⟨.inl rfl, fun hspent => hspent.1 rfl⟩
  level := by rwa [add_level_self, add_level_of_ne hhole]
  scopes s hs := by
    rw [add_scopes_self] at hs
    rwa [add_scopes_of_ne hhole]
  loose := by
    refine ⟨⟨_, get?_addNode_nextId kind source payload slots t, rfl⟩, ?_⟩
    rw [root_addNode]
    intro hr
    obtain ⟨n, hn, -⟩ := hc.root hr
    exact ne_nextId_of_get? hn rfl

end NewNode

/-- The hole is a child of a reachable node, arguments are pending and nodes are free. The first plan and tree are those
the replacement started from, and the accounts of all live nodes hold at most `weight`. -/
structure Ready (located : ModuleName → Prop) (P₀ : Plan) (t₀ : Tree) (P : Plan) (t : Tree) (hole parent : NodeId)
    (pending free : List NodeId) (weight : Nat) : Prop where
  start : P₀.Fits located t₀ none
  fits : P.Fits located t (some hole)
  keeps : Keeps (P₀.level hole + 1) P₀ t₀ P t
  level : P.level hole = P₀.level hole
  scopes : P.scopes hole = P₀.scopes hole
  bindings : t.bindings = t₀.bindings
  spent : P.spent hole
  place : t.IsParent hole parent
  reach : t.Reachable parent
  kind : ∀ n, t.get? hole = some n → n.kind ≠ .keyValuePair ∧ n.kind ≠ .attributeLookup
  nodup : (pending ++ free).Nodup
  movable : ∀ a ∈ pending, P.Movable t hole a
  free : ∀ a ∈ free, P.Free t hole a
  weight : t.weight P.credit ≤ weight

namespace Ready

variable {P₀ : Plan} {t₀ : Tree} {hole parent a : NodeId} {pending free : List NodeId} {weight : Nat}

theorem known_hole (h : Ready located P₀ t₀ P t hole parent pending free weight) : P.known hole := by
  obtain ⟨_, -, hu⟩ := h.fits.under h.place (h.fits.known_of_reachable h.reach)
  exact hu.known

theorem not_hole_below (h : Ready located P₀ t₀ P t hole parent pending free weight) {x : NodeId} (hx : P.known x)
    (hlevel : P.level x < P.level hole) : ¬ t.Below hole x := by
  intro hb
  have := (h.fits.known_of_below hx hb).2
  omega

theorem level_parent (h : Ready located P₀ t₀ P t hole parent pending free weight) :
    P.level hole < P.level parent := by
  obtain ⟨_, -, hu⟩ := h.fits.under h.place (h.fits.known_of_reachable h.reach)
  exact hu.level

/-- A step that keeps everything above the hole leads to the next state. -/
theorem step (h : Ready located P₀ t₀ P t hole parent pending free weight) {P' : Plan} {pending' free' : List NodeId}
    {weight' : Nat} (hfits : P'.Fits located t' (some hole)) (hkeeps : Keeps (P.level hole + 1) P t P' t')
    (hlevel : P'.level hole = P.level hole) (hscopes : P'.scopes hole = P.scopes hole)
    (hbindings : t'.bindings = t.bindings) (hspent : P'.spent hole) (hplace : t'.parent? hole = t.parent? hole)
    (hkind : ∀ n', t'.get? hole = some n' → ∃ n, t.get? hole = some n ∧ n'.kind = n.kind)
    (hnodup : (pending' ++ free').Nodup) (hmovable : ∀ a ∈ pending', P'.Movable t' hole a)
    (hfree : ∀ a ∈ free', P'.Free t' hole a) (hweight : t'.weight P'.credit ≤ weight') :
    Ready located P₀ t₀ P' t' hole parent pending' free' weight' where
  start := h.start
  fits := hfits
  keeps := by
    refine h.keeps.trans h.start ?_
    rw [← h.level]
    exact hkeeps
  level := hlevel.trans h.level
  scopes := hscopes.trans h.scopes
  bindings := hbindings.trans h.bindings
  spent := hspent
  place := hplace.trans h.place
  reach := hkeeps.reachable h.fits h.reach h.level_parent
  kind n' hn' := by
    obtain ⟨n, hn, hk⟩ := hkind n' hn'
    rw [hk]
    exact h.kind n hn
  nodup := hnodup
  movable := hmovable
  free := hfree
  weight := hweight

/-- What is pending has a parent, so it is not free. -/
theorem not_free (h : Ready located P₀ t₀ P t hole parent pending free weight) {q : NodeId} (hq : t.IsParent a q) :
    a ∉ free :=
  fun hmem => (h.free a hmem).loose.not_isParent hq

theorem nodup_taken (h : Ready located P₀ t₀ P t hole parent pending free weight) {q : NodeId} (hq : t.IsParent a q) :
    (pending.erase a ++ a :: free).Nodup := by
  obtain ⟨hpending, hfree, hdisjoint⟩ := List.nodup_append.1 h.nodup
  rw [List.perm_middle.nodup_iff, List.nodup_cons, List.mem_append, List.nodup_append]
  refine ⟨?_, hpending.erase a, hfree, fun x hx y hy => hdisjoint x (List.mem_of_mem_erase hx) y hy⟩
  rintro (hmem | hmem)
  · exact ((List.Nodup.mem_erase_iff hpending).1 hmem).1 rfl
  · exact h.not_free hq hmem

/-- A node can be taken out of one that is given up. -/
theorem detachFrom (h : Ready located P₀ t₀ P t hole parent pending free weight) {q : NodeId} (hq : t.IsParent a q)
    (hspent : P.spent q) (hin : P.Inside a) (hlevel : P.level a < P.level hole)
    (hscopes : ∀ s, P.scopes a s → P.scopes hole s) : ∃ t', TreeM.detach a t = .ok a t' ∧
      Ready located P₀ t₀ P t' hole parent (pending.erase a) (a :: free) weight ∧ SameKinds t t' := by
  have hc := h.fits.built.consistent
  obtain ⟨nq, hnq, -⟩ := hc.parent_live hq
  obtain ⟨t', hrun, hr⟩ := hc.detach_ok hnq hq
  have hbuilt : t'.Built := h.fits.built.of_discard (.detach a) rfl hrun
  have hah : hole ≠ a := by rintro rfl; omega
  have hkeeps : Keeps (P.level hole + 1) P t P t' := by
    refine keeps_of_relinked hr nofun ?_
    rintro _ ⟨⟩
    omega
  refine ⟨t', hrun, h.step (h.fits.taken hbuilt hnq hspent hr) hkeeps rfl rfl hr.bindings h.spent
    (hr.parent?_of_ne hah) ?_ (h.nodup_taken hq) ?_ ?_ ?_, sameKinds_of_relinked hr⟩
  · intro n' hn'
    obtain ⟨n, hn, rfl⟩ := hr.get?_eq_some hn'
    exact ⟨n, hn, rfl⟩
  · intro b hb
    have hne : b ≠ a := ((List.Nodup.mem_erase_iff (List.nodup_append.1 h.nodup).1).1 hb).1
    obtain ⟨hinb, hl, hs, q', hq', hsp⟩ := h.movable b (List.mem_of_mem_erase hb)
    exact ⟨hinb, hl, hs, q', (hr.parent?_of_ne hne).trans hq', hsp⟩
  · intro f hf
    rcases List.mem_cons.1 hf with rfl | hf
    · refine ⟨hin, Nat.le_of_lt hlevel, hscopes, ?_, ?_⟩
      · obtain ⟨n, hn, -⟩ := parent?_eq_some_iff.1 hq
        exact ⟨_, by rw [hr.get?, hn]; rfl, by simp⟩
      · rw [hr.root]
        exact hc.ne_root_of_parent? hq
    · obtain ⟨hinf, hl, hs, hloose⟩ := h.free f hf
      exact ⟨hinf, hl, hs, hr.loose hloose⟩
  · refine Nat.le_trans (weight_le_of_handles_subset (handles_subset fun x n' hn' => ?_)) h.weight
    obtain ⟨n, hn, -⟩ := hr.get?_eq_some hn'
    exact ⟨n, hn⟩

/-- A pending argument can be taken out. -/
theorem detach (h : Ready located P₀ t₀ P t hole parent pending free weight) (ha : a ∈ pending) :
    ∃ t', TreeM.detach a t = .ok a t' ∧
      Ready located P₀ t₀ P t' hole parent (pending.erase a) (a :: free) weight ∧ SameKinds t t' := by
  obtain ⟨hin, hlevel, hscopes, q, hq, hspent⟩ := h.movable a ha
  exact h.detachFrom hq hspent hin (by omega) hscopes

theorem nodup_made (h : Ready located P₀ t₀ P t hole parent pending free weight) (used : List NodeId) :
    (pending ++ t.nextId :: free.filter (· ∉ used)).Nodup := by
  have hold := h.nodup
  simp only [List.nodup_append, List.nodup_cons, List.mem_cons] at hold ⊢
  refine ⟨hold.1, ⟨fun hmem => ?_, hold.2.1.filter _⟩, ?_⟩
  · exact (h.free _ (List.mem_filter.1 hmem).1).loose.ne_nextId rfl
  · rintro a ha b (rfl | hb)
    · obtain ⟨q, hq, -⟩ := (h.movable a ha).parent
      exact hq.ne_nextId
    · exact hold.2.2 a ha b (List.mem_filter.1 hb).1

/-- A node can be made over free nodes. -/
theorem make (h : Ready located P₀ t₀ P t hole parent pending free weight) {kind : NodeKind} {payload : Payload}
    {slots : List Slot} {level credit : Nat}
    (hm : P.Makes located t hole kind payload slots level credit) (hlevel : level ≤ P.level hole)
    (source : SourceRef) : ∃ t', TreeM.newNode kind source payload slots t = .ok t.nextId t' ∧
      Ready located P₀ t₀ (P.add t.nextId hole level credit) t' hole parent pending
        (t.nextId :: free.filter (· ∉ slots.flatMap Slot.ids)) (weight + credit) ∧
      SameKinds t t' ∧ t'.get? t.nextId = some { kind, source, payload, slots } := by
  have hrun := newNode_ok hm.makes source
  have hbuilt := h.fits.built.of_discard (.newNode kind source payload slots) rfl hrun
  have hc := h.fits.built.consistent
  have hhole : hole ≠ t.nextId := h.place.ne_nextId
  have hplace : (t.addNode kind source payload slots).IsParent hole parent := hm.makes.isParent h.place
  have hkinds := sameKinds_addNode t kind source payload slots
  refine ⟨_, hrun, h.step (h.fits.add hm source hbuilt) (hm.keeps source _) (add_level_of_ne hhole)
    (add_scopes_of_ne hhole) (bindings_addNode kind source payload slots t) ⟨hhole, h.spent⟩
    (hplace.trans (Eq.symm h.place)) ?_ (h.nodup_made _) (fun a ha => (h.movable a ha).add hm hc hhole) ?_ ?_, hkinds,
    get?_addNode_nextId kind source payload slots t⟩
  · intro n' hn'
    obtain ⟨n, hn, hkind, -⟩ := hm.makes.old hhole hn'
    exact ⟨n, hn, hkind⟩
  · intro f hf
    rcases List.mem_cons.1 hf with rfl | hf
    · exact free_new hc hlevel hhole
    · obtain ⟨hmem, hnot⟩ := List.mem_filter.1 hf
      exact (h.free f hmem).add (by simpa using hnot) hhole
  · have hweight : (t.addNode kind source payload slots).weight (P.add t.nextId hole level credit).credit =
        t.weight P.credit + credit := weight_addNode
    rw [hweight]
    exact Nat.add_le_add_right h.weight credit

section Below

variable {f x : NodeId}

/-- What hangs below a free node is in order, if the hole is not above it. -/
theorem inside_below (h : Ready located P₀ t₀ P t hole parent pending free weight) (ha : a ∈ free)
    (hlevel : P.level a < P.level hole) (hx : t.Below x a) : P.Inside x := by
  have hfree := h.free a ha
  refine h.fits.inside_of_below hfree.inside hx ?_
  rintro _ ⟨⟩ hxh
  -- the way up from `x` leads to both `a` and the hole, so one of them is above the other
  rcases below_total hx hxh with hah | hha
  · exact absurd (congrArg P.level (hfree.loose.eq_of_below hah)) (Nat.ne_of_lt hlevel)
  · exact h.not_hole_below hfree.inside.1 hlevel hha

theorem pending_not_below (h : Ready located P₀ t₀ P t hole parent pending free weight) (ha : a ∈ free)
    (hlevel : P.level a < P.level hole) (hx : x ∈ pending) : ¬ t.Below x a := by
  obtain ⟨q, hq, hspent⟩ := (h.movable x hx).parent
  intro hxa
  rcases Relation.ReflTransGen.cases_head hxa with rfl | ⟨q', hq', hqa⟩
  · exact h.not_free hq ha
  · obtain rfl := hq.unique hq'
    exact (h.inside_below ha hlevel hqa).2 hspent

end Below

/-- A free node can be torn down. -/
theorem tearDown (h : Ready located P₀ t₀ P t hole parent pending free weight) (ha : a ∈ free)
    (hlevel : P.level a < P.level hole) : ∃ t', TreeM.finalize a t = .ok () t' ∧
      Ready located P₀ t₀ P t' hole parent pending (free.erase a) weight := by
  have hc := h.fits.built.consistent
  obtain ⟨hin, -, -, hloose⟩ := h.free a ha
  obtain ⟨ids, hmem, hrun⟩ := hc.finalize_ok hloose
  have hbuilt := h.fits.built.of_run (.finalize a) hrun
  have hkept {x : NodeId} (hx : ¬ t.Below x a) : (t.erase ids).get? x = t.get? x :=
    get?_erase_of_notMem (mt (hmem x).1 hx)
  have hhole : ¬ t.Below hole a := h.not_hole_below hin.1 hlevel
  refine ⟨_, hrun, h.step (h.fits.erase hbuilt) (h.fits.keeps_erase hin.1 hmem (by omega)) rfl rfl rfl h.spent ?_ ?_ ?_
    ?_ ?_ (Nat.le_trans weight_erase_le h.weight)⟩
  · rw [parent?, hkept hhole]
    rfl
  · intro n' hn'
    exact ⟨n', get?_of_get?_erase hn', rfl⟩
  · have hold := h.nodup
    rw [List.nodup_append] at hold ⊢
    exact ⟨hold.1, hold.2.1.erase a, fun x hx y hy => hold.2.2 x hx y (List.mem_of_mem_erase hy)⟩
  · intro b hb
    obtain ⟨hinb, hl, hs, q, hq, hsp⟩ := h.movable b hb
    refine ⟨hinb, hl, hs, q, ?_, hsp⟩
    rw [IsParent, parent?, hkept (h.pending_not_below ha hlevel hb)]
    exact hq
  · intro f hf
    obtain ⟨hinf, hl, hs, hfree⟩ := h.free f (List.mem_of_mem_erase hf)
    have hne : f ≠ a := ((List.Nodup.mem_erase_iff (List.nodup_append.1 h.nodup).2.1).1 hf).1
    have hsame := hkept (mt hfree.eq_of_below hne)
    obtain ⟨⟨n, hn, hnp⟩, hroot⟩ := hfree
    exact ⟨hinf, hl, hs, ⟨n, hsame.trans hn, hnp⟩, hroot⟩

end Ready

/-! ## Filling the hole -/

section Replaced

variable {hole parent new x c : NodeId} {n n' np : Node}

/-- What the place of the hole asks of a child, the free node meets as well. -/
theorem Fits.under_replaced (h : P.Fits located t (some hole)) (hfree : P.Free t hole new) (hn : t.get? x = some n)
    (hx : P.known x) (hkind : n'.kind = n.kind) (hc : c ∈ n.children) : P.Under x n' (if c = hole then new else c) := by
  obtain ⟨hknown, hlevel, hscopes⟩ := h.child hn hx hc
  rw [← hkind] at hscopes
  split
  · next e =>
    subst e
    exact ⟨hfree.inside.1, Nat.lt_of_le_of_lt hfree.level hlevel, fun s hs => hscopes s (hfree.scopes s hs)⟩
  · exact ⟨hknown, hlevel, hscopes⟩

theorem Fits.inside_replaced (h : P.Fits located t (some hole)) (hfree : P.Free t hole new) (hn : t.get? x = some n)
    (hx : P.Inside x) (hc : c ∈ n.children) : P.Inside (if c = hole then new else c) := by
  split
  · exact hfree.inside
  · next hne =>
    exact ⟨(h.child hn hx.1 hc).known, fun hspent => hne (Option.some.inj (h.hole hn hx hc hspent)).symm⟩

/-- The hole is neither a pair nor a method, so no node depends on its kind. -/
theorem Fits.good_replaced (h : P.Fits located t (some hole)) (hfree : P.Free t hole new)
    (hplain : ∀ n, t.get? hole = some n → n.kind ≠ .keyValuePair ∧ n.kind ≠ .attributeLookup)
    (hsame : SameKinds t t') (hbindings : t'.bindings = t.bindings) (hn : t.get? x = some n) (hx : P.Inside x)
    (hkind : n'.kind = n.kind) (hpayload : n'.payload = n.payload)
    (hslots : n'.slots = n.slots.map (Slot.renamed hole new)) : P.Good located t' x n' := by
  refine (h.good hn hx).transfer (f := fun c => if c = hole then new else c) hkind hpayload hslots
    (fun _ _ => Slot.fits_renamed) (fun _ => Slot.ids_renamed) (fun c hc => ?_)
    (fun i b hb => ⟨b, by rw [hbindings, hb], rfl⟩) rfl rfl fun c _ hlow => ?_
  · obtain ⟨m, hm, -⟩ := h.built.consistent.held hn hc
    refine ⟨m, hm, fun hmarked => ?_⟩
    by_cases e : c = hole
    · subst e
      exact absurd hmarked (not_or.2 (hplain m hm))
    · rw [if_neg e]
      exact hsame c m hm
  · split
    · next e =>
      subst e
      have := hfree.level
      omega
    · exact hlow

/-- After the hole gave way to a free node, the plan fits without it. -/
theorem Fits.replaced (h : P.Fits located t (some hole)) (hbuilt : t'.Built) (hparent : t.get? parent = some np)
    (hplace : t.IsParent hole parent)
    (hplain : ∀ n, t.get? hole = some n → n.kind ≠ .keyValuePair ∧ n.kind ≠ .attributeLookup)
    (hfree : P.Free t hole new)
    (hr : Relinked t t' parent (np.slots.map (Slot.renamed hole new)) (some new) (some hole)) :
    P.Fits located t' none where
  built := hbuilt
  root := by
    obtain ⟨r, hroot, hin, hnone⟩ := h.root
    exact ⟨r, hr.root.trans hroot, hin, hnone⟩
  child {x n' c} hn' hx hc := by
    obtain ⟨n, hn, hkind, -, hslots⟩ := hr.renamed h.built.consistent hparent hplace hn'
    rw [Node.children_map hslots fun _ => Slot.ids_renamed] at hc
    obtain ⟨c₀, hc₀, rfl⟩ := List.mem_map.1 hc
    exact h.under_replaced hfree hn hx hkind hc₀
  hole {x n' c} hn' hx hc hspent := by
    obtain ⟨n, hn, -, -, hslots⟩ := hr.renamed h.built.consistent hparent hplace hn'
    rw [Node.children_map hslots fun _ => Slot.ids_renamed] at hc
    obtain ⟨c₀, hc₀, rfl⟩ := List.mem_map.1 hc
    exact absurd hspent (h.inside_replaced hfree hn hx hc₀).2
  good {x n'} hn' hx := by
    obtain ⟨n, hn, hkind, hpayload, hslots⟩ := hr.renamed h.built.consistent hparent hplace hn'
    exact h.good_replaced hfree hplain (sameKinds_of_relinked hr) hr.bindings hn hx hkind hpayload hslots

end Replaced

namespace Ready

variable {P₀ : Plan} {t₀ : Tree} {hole parent new : NodeId} {pending free : List NodeId} {weight : Nat}

/-- A free node can take the place of the hole, which is loose then. -/
theorem takePlace (h : Ready located P₀ t₀ P t hole parent pending free weight) (hnew : new ∈ free) :
    ∃ t', TreeM.replaceWith hole new t = .ok () t' ∧ P.Fits located t' none ∧ Keeps (P.level hole + 1) P t P t' ∧
      t'.weight P.credit ≤ weight ∧ t'.IsParent new parent ∧ t'.Loose hole ∧ t'.bindings = t.bindings := by
  have hc := h.fits.built.consistent
  have hf := h.free new hnew
  obtain ⟨np, hnp, -⟩ := hc.parent_live h.place
  have hnot : ¬ t.StrictlyBelow hole new := fun hb =>
    absurd (h.fits.level_lt hf.inside.1 hb) (Nat.not_lt.2 hf.level)
  obtain ⟨t', hrun, hr⟩ := hc.replaceWith_ok hnp h.place hf.loose hnot
  have hbuilt : t'.Built := h.fits.built.of_run (.replaceWith hole new) hrun
  have hne : new ≠ hole := fun e => hf.inside.2 (e ▸ h.spent)
  have hkeeps : Keeps (P.level hole + 1) P t P t' := by
    refine keeps_of_relinked hr ?_ ?_
    · rintro _ ⟨⟩
      exact Nat.lt_succ_of_le hf.level
    · rintro _ ⟨⟩
      exact Nat.lt_succ_self _
  refine ⟨t', hrun, h.fits.replaced hbuilt hnp h.place h.kind hf hr, hkeeps, ?_, ?_, ⟨?_, ?_⟩, hr.bindings⟩
  · refine Nat.le_trans (weight_le_of_handles_subset (handles_subset fun x n' hn' => ?_)) h.weight
    obtain ⟨n, hn, -⟩ := hr.get?_eq_some hn'
    exact ⟨n, hn⟩
  · obtain ⟨n, hn, -⟩ := hf.loose.live
    exact parent?_eq_some_iff.2 ⟨_, by rw [hr.get?, hn]; rfl, by simp⟩
  · obtain ⟨n, hn, -⟩ := parent?_eq_some_iff.1 h.place
    exact ⟨_, by rw [hr.get?, hn]; rfl, by simp [hne]⟩
  · rw [hr.root]
    exact hc.ne_root_of_parent? h.place

/-- A free node takes the place of the hole, and what is left of the hole is torn down. -/
theorem finish (h : Ready located P₀ t₀ P t hole parent pending free weight) (hnew : new ∈ free) :
    ∃ t₁ t₂, TreeM.replaceWith hole new t = .ok () t₁ ∧ TreeM.finalize hole t₁ = .ok () t₂ ∧
      P.Fits located t₂ none ∧ Keeps (P₀.level hole + 1) P₀ t₀ P t₂ ∧ t₂.weight P.credit ≤ weight ∧
      t₂.IsParent new parent ∧ t₂.Reachable parent ∧ t₂.bindings = t.bindings ∧
      ∀ s, P.scopes hole s → ∃ n, t₂.get? s = some n := by
  obtain ⟨t₁, hrun₁, hfits₁, hkeeps₁, hweight₁, hplace₁, hloose, hbindings⟩ := h.takePlace hnew
  obtain ⟨ids, hmem, hrun₂⟩ := hfits₁.built.consistent.finalize_ok hloose
  have hbuilt₂ : (t₁.erase ids).Built := hfits₁.built.of_run (.finalize hole) hrun₂
  have hfits₂ : P.Fits located (t₁.erase ids) none := hfits₁.erase hbuilt₂
  have hkeeps : Keeps (P.level hole + 1) P t P (t₁.erase ids) :=
    hkeeps₁.trans h.fits (hfits₁.keeps_erase h.known_hole hmem (Nat.lt_succ_self _))
  have hnewBelow : ¬ t₁.Below new hole := by
    intro hb
    rcases Relation.ReflTransGen.cases_head hb with rfl | ⟨q, hq, hrest⟩
    · exact hloose.not_isParent hplace₁
    · have := (hfits₁.known_of_below h.known_hole hrest).2
      have := h.level_parent
      obtain rfl := hq.unique hplace₁
      omega
  have hplace₂ : (t₁.erase ids).IsParent new parent := by
    rw [IsParent, parent?, get?_erase_of_notMem (mt (hmem new).1 hnewBelow)]
    exact hplace₁
  have hreach₂ := hkeeps.reachable h.fits h.reach h.level_parent
  refine ⟨t₁, _, hrun₁, hrun₂, hfits₂, ?_, Nat.le_trans weight_erase_le hweight₁, hplace₂, hreach₂, hbindings,
    fun s hs => ?_⟩
  · refine h.keeps.trans h.start ?_
    rw [← h.level]
    exact hkeeps
  · obtain ⟨n, -, hu⟩ := h.fits.under h.place (h.fits.known_of_reachable h.reach)
    rcases hu.scopes s hs with hs | ⟨rfl, -⟩
    · exact (hfits₂.scopes_above hreach₂ hs).2.imp fun _ => And.left
    · exact (hbuilt₂.consistent.parent_live hplace₂).imp fun _ => And.left

end Ready

/-! ## Giving nodes up -/

/-- The plan without some nodes, whose accounts are cleared. -/
def giveUp (P : Plan) (ids : List NodeId) : Plan :=
  { P with
    spent x := P.spent x ∨ x ∈ ids
    credit x := if x ∈ ids then 0 else P.credit x }

section GiveUp

variable {hole x : NodeId} {ids : List NodeId}

theorem inside_giveUp : (P.giveUp ids).Inside x ↔ P.Inside x ∧ x ∉ ids := by
  simp only [Inside, giveUp, not_or, and_assoc]

/-- The plan fits when the nodes that are given up hang below each other, but for the topmost one. -/
theorem Fits.giveUp (h : P.Fits located t none) (hparent : ∀ c ∈ ids, ∃ q, t.IsParent c q)
    (hclosed : ∀ c ∈ ids, c = hole ∨ ∃ q ∈ ids, t.IsParent c q) : (P.giveUp ids).Fits located t (some hole) where
  built := h.built
  root := by
    obtain ⟨r, hr, hin, hnone⟩ := h.root
    refine ⟨r, hr, inside_giveUp.2 ⟨hin, fun hmem => ?_⟩, hnone⟩
    obtain ⟨q, hq⟩ := hparent r hmem
    exact h.built.consistent.ne_root_of_parent? hq hr
  child hn hx hc := by
    obtain ⟨hknown, hlevel, hscopes⟩ := h.child hn hx hc
    exact ⟨hknown, hlevel, hscopes⟩
  hole {x n c} hn hx hc hspent := by
    obtain ⟨hx, hxids⟩ := inside_giveUp.1 hx
    rcases hspent with hspent | hmem
    · exact nomatch h.hole hn hx hc hspent
    · rcases hclosed c hmem with rfl | ⟨q, hq, hcq⟩
      · rfl
      · have hcx : t.IsParent c x := (h.built.consistent.isParent_iff hn).2 hc
        exact absurd (hcq.unique hcx ▸ hq) hxids
  good {x n} hn hx := by
    obtain ⟨hx, hxids⟩ := inside_giveUp.1 hx
    have hcredit : (P.giveUp ids).credit x = P.credit x := if_neg hxids
    obtain ⟨hcomplete, hpairs, howner, hlocated, hfunded, hcall⟩ := h.good hn hx
    exact ⟨hcomplete, hpairs, howner, hlocated, hcredit ▸ hfunded, hcredit ▸ hcall⟩

end GiveUp

/-- Nodes that hang together can be given up for a replacement of the topmost one, and what was on their accounts can
be used for new nodes and for changes. -/
theorem Ready.ofFits {hole parent : NodeId} {ids pending : List NodeId} {weight : Nat} (h : P.Fits located t none)
    (hplace : t.IsParent hole parent) (hreach : t.Reachable parent)
    (hkind : ∀ n, t.get? hole = some n → n.kind ≠ .keyValuePair ∧ n.kind ≠ .attributeLookup) (hnodup : ids.Nodup)
    (hhole : hole ∈ ids) (hclosed : ∀ c ∈ ids, c = hole ∨ ∃ q ∈ ids, t.IsParent c q) (hpending : pending.Nodup)
    (hmovable : ∀ a ∈ pending, a ∉ ids ∧ P.Inside a ∧ P.level a + 4 ≤ P.level hole ∧
      (∀ s, P.scopes a s → P.scopes hole s) ∧ ∃ q ∈ ids, t.IsParent a q)
    (hweight : t.weight P.credit ≤ weight + (ids.map P.credit).sum) :
    Ready located P t (P.giveUp ids) t hole parent pending [] weight where
  start := h
  fits := by
    refine h.giveUp (fun c hc => ?_) hclosed
    rcases hclosed c hc with rfl | ⟨q, -, hq⟩
    · exact ⟨parent, hplace⟩
    · exact ⟨q, hq⟩
  keeps := ⟨rfl, fun hn _ _ => ⟨⟨_, hn⟩, rfl, rfl⟩⟩
  level := rfl
  scopes := rfl
  bindings := rfl
  spent := .inr hhole
  place := hplace
  reach := hreach
  kind := hkind
  nodup := by simpa using hpending
  movable a ha := by
    obtain ⟨hmem, hain, hl, hs, q, hq, haq⟩ := hmovable a ha
    exact ⟨inside_giveUp.2 ⟨hain, hmem⟩, hl, hs, q, haq, .inr hq⟩
  free := by simp
  weight := by
    have hlive : ∀ c ∈ ids, ∃ n, t.get? c = some n := by
      intro c hc
      rcases hclosed c hc with rfl | ⟨q, -, hq⟩
      · exact (parent?_eq_some_iff.1 hplace).imp fun _ => And.left
      · exact (parent?_eq_some_iff.1 hq).imp fun _ => And.left
    have hclear := weight_clear P.credit hnodup hlive
    change t.weight (fun x => if x ∈ ids then 0 else P.credit x) ≤ weight
    omega

end Specializer.Plan
