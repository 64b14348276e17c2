import Mathlib.Algebra.BigOperators.Group.Finset.Basic
import Mathlib.Algebra.GroupWithZero.Nat
import Mathlib.Algebra.Order.BigOperators.Group.Finset
import Specializer.Proofs.Tree.Operation

/-!
# Plans for a walk of the optimizer

While a unit is walked, nodes are taken out of their places, put under new ones and torn down, and the walk goes on with
what it saw before. What stays true all the time is stated against a plan: for each node it says which scopes are
around it, an upper bound for how far it reaches down, and how many changes may still be announced on its account.

* `Plan.Fits` relates a plan to the tree as it is at any moment, possibly with a hole: one node that is given up and about
  to be replaced.
* `Plan.Keeps` says that a step left everything high enough in the tree in its place.
* `Tree.weight` sums up what is left on the accounts of the live nodes.
* `Tree.Orderly` is the invariant between two units, in terms of the tree alone; `Plan.fits_ofTree` makes a plan from it
  and `Plan.Fits.orderly` leads back.
-/

namespace Specializer

/-! ## Nodes in named slots -/

/-- The nodes in the slot with a given name. -/
def Node.inSlot (n : Node) (name : String) : List NodeId :=
  ((n.kind.slotIndex? name).bind (n.slots[·]?)).elim [] Slot.ids

theorem Node.mem_children_of_inSlot {n : Node} {name : String} {c : NodeId} (h : c ∈ n.inSlot name) :
    c ∈ n.children := by
  unfold inSlot at h
  cases hs : (n.kind.slotIndex? name).bind (n.slots[·]?) with
  | none => simp [hs] at h
  | some s =>
    obtain ⟨i, -, hi⟩ := Option.bind_eq_some_iff.1 hs
    simp only [hs, Option.elim_some] at h
    exact List.mem_flatMap.2 ⟨s, List.mem_of_getElem? hi, h⟩

/-- An edit of all slots shows in each of them. -/
theorem Node.inSlot_map {n n' : Node} {f : Slot → Slot} {g : List NodeId → List NodeId} (hkind : n'.kind = n.kind)
    (hslots : n'.slots = n.slots.map f) (hids : ∀ s, (f s).ids = g s.ids) (hnil : g [] = []) (name : String) :
    n'.inSlot name = g (n.inSlot name) := by
  unfold inSlot
  rw [hkind, hslots]
  cases n.kind.slotIndex? name with
  | none => simpa using hnil.symm
  | some i =>
    cases hs : n.slots[i]? with
    | none => simpa [hs] using hnil.symm
    | some s => simp [hs, hids]

theorem Node.children_map {n n' : Node} {f : Slot → Slot} {g : NodeId → NodeId} (hslots : n'.slots = n.slots.map f)
    (hids : ∀ s, (f s).ids = s.ids.map g) : n'.children = n.children.map g := by
  rw [children, children, hslots, List.flatMap_map, List.map_flatMap]
  simp only [hids]

/-- How many changes a node may lead to: its own replacement, the count of its variable, and what the replacement may
lead to in turn. A node among side effects may also be dropped. -/
def NodeKind.changes : NodeKind → Nat
  | .variableRef | .builtinImport => 3
  | .importModule | .importName => 2
  | .builtinChr | .builtinOrd | .builtinBin | .builtinOct | .builtinHex | .builtinLen | .builtinType1 | .builtinRange
  | .builtinTuple | .builtinList | .builtinDict | .builtinFloat | .builtinStr | .builtinBool | .builtinInt
  | .builtinLong => 2
  | _ => 1

theorem NodeKind.one_le_changes (k : NodeKind) : 1 ≤ k.changes := by
  cases k <;> decide

namespace Tree

/-- A call of an attribute, which is no call of a builtin. -/
def IsMethodCall (t : Tree) (n : Node) : Prop :=
  ∃ a ∈ n.inSlot "called", ∃ m, t.get? a = some m ∧ m.kind = .attributeLookup

/-- The live nodes. -/
def handles (t : Tree) : Finset NodeId :=
  ((Finset.range t.nodes.size).map ⟨NodeId.mk, fun _ _ h => NodeId.mk.inj h⟩).filter fun id => t.isLive id = true

theorem mem_handles {t : Tree} {id : NodeId} : id ∈ t.handles ↔ ∃ n, t.get? id = some n := by
  simp only [handles, Finset.mem_filter, Finset.mem_map, Finset.mem_range, isLive_iff]
  exact ⟨And.right, fun ⟨n, hn⟩ => ⟨⟨id.index, lt_size_of_get? hn, rfl⟩, n, hn⟩⟩

/-- What is left on the accounts of the live nodes. -/
def weight (t : Tree) (credit : NodeId → Nat) : Nat := ∑ id ∈ t.handles, credit id

end Tree

/-! ## Plans -/

/-- What is expected of the nodes during a walk. -/
structure Plan where
  /-- The nodes the walk has to do with. -/
  known : NodeId → Prop
  /-- The nodes that are given up; nothing is expected of them any more. -/
  spent : NodeId → Prop
  /-- The scopes around a node. -/
  scopes : NodeId → NodeId → Prop
  /-- More than the level of everything below the node. -/
  level : NodeId → Nat
  /-- How many changes may still be announced for the node. -/
  credit : NodeId → Nat

namespace Plan

/-- The nodes that are expected to be in order. -/
def Inside (P : Plan) (x : NodeId) : Prop := P.known x ∧ ¬ P.spent x

/-- A child agrees with its parent. -/
structure Under (P : Plan) (x : NodeId) (n : Node) (c : NodeId) : Prop where
  known : P.known c
  level : P.level c < P.level x
  scopes : ∀ s, P.scopes c s → P.scopes x s ∨ (s = x ∧ n.kind.isScope = true)

theorem Under.scopes_of_not_scope {P : Plan} {x c s : NodeId} {n : Node} (h : P.Under x n c)
    (hscope : n.kind.isScope = false) (hs : P.scopes c s) : P.scopes x s := by
  refine (h.scopes s hs).resolve_right fun hx => ?_
  rw [hscope] at hx
  exact nomatch hx.2

/-- A node is in order. `located` tells which modules are known to be somewhere. -/
structure Good (located : ModuleName → Prop) (P : Plan) (t : Tree) (x : NodeId) (n : Node) : Prop where
  complete : checkSlots n.kind n.slots = .ok ()
  pairs : ∀ c ∈ n.inSlot "pairs", ∀ m, t.get? c = some m → m.kind = .keyValuePair
  owner : n.kind = .variableRef → ∀ v, n.payload = .var v → ∃ b, t.bindings[v.index]? = some b ∧ P.scopes x b.owner
  located : ∀ spec, n.payload = .hardImport spec → located spec.module
  funded : n.kind.changes ≤ P.credit x
  /-- The replacement of a call of a builtin may be four levels deep. -/
  call : n.kind = .functionCall →
    t.IsMethodCall n ∨ (7 ≤ P.credit x ∧ ∀ c ∈ n.children, P.level c + 4 ≤ P.level x)

/-- A plan fits a tree in which at most one node in use, the hole, is given up. -/
structure Fits (located : ModuleName → Prop) (P : Plan) (t : Tree) (hole : Option NodeId) : Prop where
  built : t.Built
  root : ∃ r, t.root = some r ∧ P.Inside r ∧ ∀ s, ¬ P.scopes r s
  child : ∀ {x n c}, t.get? x = some n → P.known x → c ∈ n.children → P.Under x n c
  hole : ∀ {x n c}, t.get? x = some n → P.Inside x → c ∈ n.children → P.spent c → hole = some c
  good : ∀ {x n}, t.get? x = some n → P.Inside x → P.Good located t x n

namespace Fits

variable {located : ModuleName → Prop} {P : Plan} {t : Tree} {hole : Option NodeId} {x y s : NodeId} {n : Node}

theorem under (h : P.Fits located t hole) (hp : t.IsParent y x) (hx : P.known x) :
    ∃ n, t.get? x = some n ∧ P.Under x n y := by
  obtain ⟨n, hn, hmem⟩ := h.built.consistent.parent_live hp
  exact ⟨n, hn, h.child hn hx hmem⟩

theorem known_of_below (h : P.Fits located t hole) (hx : P.known x) (hb : t.Below y x) :
    P.known y ∧ P.level y ≤ P.level x := by
  induction hb using Relation.ReflTransGen.head_induction_on with
  | refl => exact ⟨hx, Nat.le_refl _⟩
  | head hp _ ih =>
    obtain ⟨n, -, hu⟩ := h.under hp ih.1
    exact ⟨hu.known, Nat.le_trans (Nat.le_of_lt hu.level) ih.2⟩

theorem level_lt (h : P.Fits located t hole) (hx : P.known x) (hb : t.StrictlyBelow y x) : P.level y < P.level x := by
  obtain ⟨z, hp, hzx⟩ := Relation.TransGen.head'_iff.1 hb
  obtain ⟨hz, hle⟩ := h.known_of_below hx hzx
  obtain ⟨n, -, hu⟩ := h.under hp hz
  exact Nat.lt_of_lt_of_le hu.level hle

/-- Everything between an orderly node and the hole is in order. -/
theorem inside_of_below (h : P.Fits located t hole) (hx : P.Inside x) (hb : t.Below y x)
    (hhole : ∀ z, hole = some z → ¬ t.Below y z) : P.Inside y := by
  induction hb using Relation.ReflTransGen.head_induction_on with
  | refl => exact hx
  | head hp _ ih =>
    rename_i y z _
    have hz : P.Inside z := ih fun w hw hzw => hhole w hw (.head hp hzw)
    obtain ⟨n, hn, hmem⟩ := h.built.consistent.parent_live hp
    refine ⟨(h.child hn hz.1 hmem).known, fun hspent => ?_⟩
    exact hhole y (h.hole hn hz hmem hspent) .refl

theorem known_of_reachable (h : P.Fits located t hole) (hx : t.Reachable x) : P.known x := by
  obtain ⟨r, hr, hb⟩ := hx
  obtain ⟨r', hr', hin, -⟩ := h.root
  rw [hr, Option.some.injEq] at hr'
  subst hr'
  exact (h.known_of_below hin.1 hb).1

theorem inside_of_reachable (h : P.Fits located t hole) (hx : t.Reachable x)
    (hhole : ∀ z, hole = some z → ¬ t.Below x z) : P.Inside x := by
  obtain ⟨r, hr, hb⟩ := hx
  obtain ⟨r', hr', hin, -⟩ := h.root
  rw [hr, Option.some.injEq] at hr'
  subst hr'
  exact h.inside_of_below hin hb hhole

/-- Where nothing is given up, the children of a node in order are in order. -/
theorem inside_child (h : P.Fits located t none) (hn : t.get? x = some n) (hx : P.Inside x) (hy : y ∈ n.children) :
    P.Inside y :=
  ⟨(h.child hn hx.1 hy).known, fun hspent => nomatch h.hole hn hx hy hspent⟩

theorem one_le_credit (h : P.Fits located t hole) (hn : t.get? x = some n) (hx : P.Inside x) : 1 ≤ P.credit x :=
  Nat.le_trans (NodeKind.one_le_changes n.kind) (h.good hn hx).funded

/-- The scopes around a reachable node are its ancestors. -/
theorem scopes_above (h : P.Fits located t hole) (hx : t.Reachable x) (hs : P.scopes x s) :
    t.StrictlyBelow x s ∧ ∃ n, t.get? s = some n ∧ n.kind.isScope = true := by
  obtain ⟨r, hr, hb⟩ := hx
  obtain ⟨r', hr', hin, hnone⟩ := h.root
  rw [hr, Option.some.injEq] at hr'
  subst hr'
  have key : P.known x ∧ ∀ s, P.scopes x s → t.StrictlyBelow x s ∧ ∃ n, t.get? s = some n ∧ n.kind.isScope = true := by
    clear hs
    induction hb using Relation.ReflTransGen.head_induction_on with
    | refl => exact ⟨hin.1, fun s hs => absurd hs (hnone s)⟩
    | head hp _ ih =>
      obtain ⟨n, hn, hu⟩ := h.under hp ih.1
      refine ⟨hu.known, fun s hs => ?_⟩
      rcases hu.scopes s hs with hs | ⟨rfl, hscope⟩
      · obtain ⟨hb, hlive⟩ := ih.2 s hs
        exact ⟨.head hp hb, hlive⟩
      · exact ⟨.single hp, n, hn, hscope⟩
  exact key.2 s hs

end Fits

/-! ## What stays in place -/

/-- From one moment to the next, every reachable node from a level up keeps all but its slots. -/
structure Keeps (bound : Nat) (P : Plan) (t : Tree) (P' : Plan) (t' : Tree) : Prop where
  root : t'.root = t.root
  node : ∀ {x n}, t.get? x = some n → t.Reachable x → bound ≤ P.level x →
    (∃ slots, t'.get? x = some { n with slots }) ∧ P'.level x = P.level x ∧ P'.scopes x = P.scopes x

namespace Keeps

variable {located : ModuleName → Prop} {P P' P'' : Plan} {t t' t'' : Tree} {hole : Option NodeId} {x : NodeId}
  {b b' : Nat}

theorem refl (b : Nat) (P : Plan) (t : Tree) : Keeps b P t P t :=
  ⟨rfl, fun hn _ _ => ⟨⟨_, hn⟩, rfl, rfl⟩⟩

theorem mono (h : Keeps b P t P' t') (hb : b ≤ b') : Keeps b' P t P' t' :=
  ⟨h.root, fun hn hx hle => h.node hn hx (Nat.le_trans hb hle)⟩

theorem reachable (h : Keeps b P t P' t') (hf : P.Fits located t hole) (hx : t.Reachable x) (hle : b ≤ P.level x) :
    t'.Reachable x := by
  obtain ⟨r, hr, hb⟩ := hx
  refine ⟨r, h.root.trans hr, ?_⟩
  induction hb using Relation.ReflTransGen.head_induction_on with
  | refl => exact .refl
  | head hp hrest ih =>
    rename_i x y
    have hy : t.Reachable y := ⟨r, hr, hrest⟩
    obtain ⟨_, -, hu⟩ := hf.under hp (hf.known_of_reachable hy)
    obtain ⟨n, hn, hnp⟩ := Tree.parent?_eq_some_iff.1 hp
    obtain ⟨⟨slots, hslots⟩, -, -⟩ := h.node hn ⟨r, hr, .head hp hrest⟩ hle
    have hp' : t'.IsParent x y := Tree.parent?_eq_some_iff.2 ⟨_, hslots, hnp⟩
    exact .head hp' (ih (Nat.le_trans hle (Nat.le_of_lt hu.level)))

theorem trans (h : Keeps b P t P' t') (hf : P.Fits located t hole) (h' : Keeps b P' t' P'' t'') :
    Keeps b P t P'' t'' := by
  refine ⟨h'.root.trans h.root, fun {x n} hn hx hle => ?_⟩
  obtain ⟨⟨slots, hslots⟩, hlevel, hscopes⟩ := h.node hn hx hle
  obtain ⟨⟨slots', hslots'⟩, hlevel', hscopes'⟩ := h'.node hslots (h.reachable hf hx hle) (by omega)
  exact ⟨⟨slots', hslots'⟩, hlevel'.trans hlevel, hscopes'.trans hscopes⟩

end Keeps

end Plan

/-! ## Accounts -/

namespace Tree

variable {t t' : Tree} {credit credit' : NodeId → Nat}

theorem weight_le_of_handles_subset (h : t'.handles ⊆ t.handles) : t'.weight credit ≤ t.weight credit :=
  Finset.sum_le_sum_of_subset h

theorem handles_subset (h : ∀ id n, t'.get? id = some n → ∃ m, t.get? id = some m) : t'.handles ⊆ t.handles := by
  intro id hid
  obtain ⟨n, hn⟩ := mem_handles.1 hid
  exact mem_handles.2 (h id n hn)

theorem weight_erase_le {ids : List NodeId} : (t.erase ids).weight credit ≤ t.weight credit :=
  weight_le_of_handles_subset (handles_subset fun _ n hn => ⟨n, get?_of_get?_erase hn⟩)

/-- Clearing the accounts of live nodes frees what was on them. -/
theorem weight_clear (credit : NodeId → Nat) {ids : List NodeId} (hnodup : ids.Nodup) (hlive : ∀ id ∈ ids, ∃ n, t.get? id = some n) :
    t.weight (fun id => if id ∈ ids then 0 else credit id) + (ids.map credit).sum = t.weight credit := by
  induction ids with
  | nil => simp
  | cons a rest ih =>
    obtain ⟨ha, hrest⟩ := List.nodup_cons.1 hnodup
    have hmem : a ∈ t.handles := mem_handles.2 (hlive a (by simp))
    rw [← ih hrest fun id hid => hlive id (by simp [hid]), List.map_cons, List.sum_cons, weight, weight,
      ← Finset.add_sum_erase _ _ hmem, ← Finset.add_sum_erase _ _ hmem]
    have hsame : ∑ id ∈ t.handles.erase a, (if id ∈ a :: rest then 0 else credit id) =
        ∑ id ∈ t.handles.erase a, if id ∈ rest then 0 else credit id := by
      refine Finset.sum_congr rfl fun id hid => ?_
      simp [(Finset.mem_erase.1 hid).1]
    rw [hsame]
    simp [ha]
    omega

theorem weight_addNode {kind : NodeKind} {source : SourceRef} {payload : Payload} {slots : List Slot} {c : Nat} :
    (t.addNode kind source payload slots).weight (fun id => if id = t.nextId then c else credit id) =
      t.weight credit + c := by
  have hnew : t.nextId ∉ t.handles := by
    intro h
    obtain ⟨n, hn⟩ := mem_handles.1 h
    simp [get?_nextId] at hn
  have hhandles : (t.addNode kind source payload slots).handles = insert t.nextId t.handles := by
    ext id
    rw [Finset.mem_insert, mem_handles, mem_handles]
    by_cases hid : id = t.nextId
    · subst hid
      simp [get?_addNode_nextId]
    · rw [get?_addNode_of_ne _ _ _ _ t hid]
      split <;> simp [hid]
  have hold : ∑ id ∈ t.handles, (if id = t.nextId then c else credit id) = ∑ id ∈ t.handles, credit id :=
    Finset.sum_congr rfl fun id hid => if_neg fun e : id = t.nextId => hnew (e ▸ hid)
  rw [weight, weight, hhandles, Finset.sum_insert hnew, hold, if_pos rfl, Nat.add_comm]

theorem weight_const (c : Nat) : t.weight (fun _ => c) = c * t.handles.card := by
  simp [weight, Nat.mul_comm]

theorem card_handles (t : Tree) : t.handles.card = t.liveCount := by
  have hcount : t.liveCount = (List.range t.nodes.size).countP fun i => t.isLive ⟨i⟩ := by
    have hlist : t.nodes.toList = (List.range t.nodes.size).map fun i => t.nodes[i]?.join := by
      refine List.ext_getElem (by simp) fun i h₁ h₂ => ?_
      simp at h₁
      simp [h₁]
    rw [liveCount, hlist, List.countP_map]
    rfl
  rw [hcount, handles, Finset.filter_map, Finset.card_map, List.countP_eq_length_filter]
  change ((List.range t.nodes.size).filter fun i => decide (t.isLive ⟨i⟩ = true)).length = _
  simp

end Tree

/-! ## Between two units -/

/-- A tree is in order: what hangs below the root is, and the accounts cover what the nodes may lead to. -/
structure Tree.Orderly (located : ModuleName → Prop) (t : Tree) (credit : NodeId → Nat) : Prop where
  built : t.Built
  root : ∃ r, t.root = some r
  complete : ∀ {x n}, t.get? x = some n → t.Reachable x → checkSlots n.kind n.slots = .ok ()
  pairs : ∀ {x n}, t.get? x = some n → t.Reachable x → ∀ c ∈ n.inSlot "pairs", ∀ m, t.get? c = some m →
    m.kind = .keyValuePair
  owner : ∀ {x n}, t.get? x = some n → t.Reachable x → n.kind = .variableRef → ∀ v, n.payload = .var v →
    ∃ b, t.bindings[v.index]? = some b ∧ t.StrictlyBelow x b.owner ∧
      ∃ m, t.get? b.owner = some m ∧ m.kind.isScope = true
  located : ∀ {x n}, t.get? x = some n → t.Reachable x → ∀ spec, n.payload = .hardImport spec → located spec.module
  funded : ∀ {x n}, t.get? x = some n → t.Reachable x → n.kind.changes ≤ credit x
  call : ∀ {x n}, t.get? x = some n → t.Reachable x → n.kind = .functionCall → t.IsMethodCall n ∨ 7 ≤ credit x

namespace Plan

/-- The plan of a tree as it stands: everything below the root, by its depth. -/
def ofTree (t : Tree) (credit : NodeId → Nat) : Plan where
  known := t.Reachable
  spent _ := False
  scopes x s := t.StrictlyBelow x s ∧ ∃ n, t.get? s = some n ∧ n.kind.isScope = true
  level x := 4 * (t.nodes.size - t.depth x)
  credit := credit

variable {located : ModuleName → Prop} {t : Tree} {credit : NodeId → Nat} {P : Plan}

theorem level_ofTree_le (t : Tree) (credit : NodeId → Nat) (x : NodeId) :
    (ofTree t credit).level x ≤ 4 * t.nodes.size := by
  simp only [ofTree]
  omega

theorem fits_ofTree (h : t.Orderly located credit) : (ofTree t credit).Fits located t none := by
  have hc := h.built.consistent
  have hlevel {x c : NodeId} {n : Node} (hn : t.get? x = some n) (hmem : c ∈ n.children) :
      (ofTree t credit).level c + 4 = (ofTree t credit).level x := by
    have hdepth := hc.depth_of_parent ((hc.isParent_iff hn).2 hmem)
    obtain ⟨m, hm, -⟩ := hc.held hn hmem
    have := hc.depth_lt_size hm
    simp only [ofTree]
    omega
  refine ⟨h.built, ?_, ?_, fun _ _ _ hs => hs.elim, ?_⟩
  · obtain ⟨r, hr⟩ := h.root
    refine ⟨r, hr, ⟨⟨r, hr, .refl⟩, id⟩, fun s hs => ?_⟩
    obtain ⟨y, hp, -⟩ := Relation.TransGen.head'_iff.1 hs.1
    rw [Tree.IsParent, hc.parent?_root hr] at hp
    cases hp
  · intro x n c hn hx hmem
    have hp : t.IsParent c x := (hc.isParent_iff hn).2 hmem
    obtain ⟨r, hr, hb⟩ := hx
    refine ⟨⟨r, hr, .head hp hb⟩, by have := hlevel hn hmem; omega, ?_⟩
    rintro s ⟨hs, hscope⟩
    obtain ⟨y, hcy, hys⟩ := Relation.TransGen.head'_iff.1 hs
    obtain rfl := hcy.unique hp
    rcases Relation.ReflTransGen.cases_head hys with rfl | ⟨z, hxz, hzs⟩
    · obtain ⟨m, hm, hkind⟩ := hscope
      rw [hn, Option.some.injEq] at hm
      exact Or.inr ⟨rfl, hm ▸ hkind⟩
    · exact Or.inl ⟨.head' hxz hzs, hscope⟩
  · rintro x n hn ⟨hx, -⟩
    refine ⟨h.complete hn hx, h.pairs hn hx, ?_, h.located hn hx, h.funded hn hx, fun hkind => ?_⟩
    · intro hkind v hv
      obtain ⟨b, hb, habove, hscope⟩ := h.owner hn hx hkind v hv
      exact ⟨b, hb, habove, hscope⟩
    · refine (h.call hn hx hkind).imp_right fun hcredit => ⟨hcredit, fun c hmem => ?_⟩
      exact Nat.le_of_eq (hlevel hn hmem)

/-- A tree that a plan without a hole fits is in order. -/
theorem Fits.orderly (h : P.Fits located t none) : t.Orderly located P.credit := by
  have good {x : NodeId} {n : Node} (hn : t.get? x = some n) (hx : t.Reachable x) : P.Good located t x n :=
    h.good hn (h.inside_of_reachable hx nofun)
  obtain ⟨r, hr, -⟩ := h.root
  refine ⟨h.built, ⟨r, hr⟩, fun hn hx => (good hn hx).complete, fun hn hx => (good hn hx).pairs, ?_,
    fun hn hx => (good hn hx).located, fun hn hx => (good hn hx).funded,
    fun hn hx hkind => ((good hn hx).call hkind).imp_right And.left⟩
  intro x n hn hx hkind v hv
  obtain ⟨b, hb, hs⟩ := (good hn hx).owner hkind v hv
  obtain ⟨habove, hscope⟩ := h.scopes_above hx hs
  exact ⟨b, hb, habove, hscope⟩

end Plan

end Specializer
