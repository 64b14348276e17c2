import Specializer.Proofs.Tree.Invariant
import Specializer.Tree.Validate

/-!
# Walks through consistent trees

In a consistent tree no chain of parent links is longer than the arena, so the bounded walks see everything:

* the ancestors of a node are exactly the nodes its parent links lead to (`Consistent.mem_ancestors_iff`);
* the walk from a live node succeeds and visits exactly what hangs below it (`Consistent.mem_walk_iff`);
* questions about the operands of a live node have an answer (`Consistent.anyOperand_ok`);
* validation accepts exactly the trees with a root all of whose reachable slots are filled
  (`Consistent.validate_eq_ok_iff`).
-/

namespace Specializer.Tree

/-- The parent links lead from the first node to the second in any number of steps. -/
abbrev Below (t : Tree) (id top : NodeId) : Prop := Relation.ReflTransGen t.IsParent id top

/-- The parent links lead from the first node to the second in at least one step. -/
abbrev StrictlyBelow (t : Tree) (id top : NodeId) : Prop := Relation.TransGen t.IsParent id top

/-- The node hangs below the root. -/
def Reachable (t : Tree) (id : NodeId) : Prop := ∃ r, t.root = some r ∧ t.Below id r

variable {t : Tree} {id top c p : NodeId} {n : Node} {fuel : Nat}

/-! ## Upwards -/

theorem IsParent.unique {a b : NodeId} (h : t.IsParent c a) (h' : t.IsParent c b) : a = b :=
  Option.some.inj (h.symm.trans h')

/-- Of two nodes above a third, one is above the other. -/
theorem below_total {x a b : NodeId} (ha : t.Below x a) (hb : t.Below x b) : t.Below a b ∨ t.Below b a :=
  Relation.ReflTransGen.total_of_right_unique (fun _ _ _ hz hw => hz.unique hw) ha hb

/-- What hangs below a live node is live. -/
theorem live_below (hb : t.Below id top) (h : ∃ n, t.get? top = some n) : ∃ n, t.get? id = some n := by
  rcases Relation.ReflTransGen.cases_head hb with rfl | ⟨q, hq, -⟩
  · exact h
  · exact (parent?_eq_some_iff.1 hq).imp fun _ => And.left

/-- Above a loose node there is nothing. -/
theorem Loose.eq_of_below (h : t.Loose id) (hb : t.Below id top) : id = top := by
  rcases Relation.ReflTransGen.cases_head hb with rfl | ⟨q, hq, -⟩
  · rfl
  · exact absurd hq h.not_isParent

theorem Loose.below_iff_of_isParent (h : t.Loose top) (hp : t.IsParent c p) : t.Below c top ↔ t.Below p top := by
  refine ⟨fun hc => ?_, .head hp⟩
  rcases Relation.ReflTransGen.cases_head hc with rfl | ⟨q, hq, hrest⟩
  · exact absurd hp h.not_isParent
  · exact hq.unique hp ▸ hrest

theorem Consistent.eq_of_root_below {r : NodeId} (h : t.Consistent) (hroot : t.root = some r) (hb : t.Below r top) :
    r = top := by
  rcases Relation.ReflTransGen.cases_head hb with rfl | ⟨q, hq, -⟩
  · rfl
  · exact absurd hroot (h.ne_root_of_parent? hq)

theorem ancestorsUpTo_of_parent (h : t.IsParent c p) (fuel : Nat) :
    t.ancestorsUpTo (fuel + 1) c = p :: t.ancestorsUpTo fuel p := by
  rw [ancestorsUpTo, show t.parent? c = some p from h]

theorem ancestorsUpTo_of_none (h : t.parent? id = none) (fuel : Nat) : t.ancestorsUpTo fuel id = [] := by
  cases fuel with
  | zero => rfl
  | succ fuel => rw [ancestorsUpTo, h]

theorem strictlyBelow_of_mem_ancestorsUpTo (h : top ∈ t.ancestorsUpTo fuel id) : t.StrictlyBelow id top := by
  induction fuel generalizing id with
  | zero => cases h
  | succ fuel ih =>
    cases hp : t.parent? id with
    | none => simp [ancestorsUpTo_of_none hp] at h
    | some p =>
      rw [ancestorsUpTo_of_parent hp, List.mem_cons] at h
      rcases h with rfl | h
      · exact .single hp
      · exact .head hp (ih h)

/-- A list of ancestors that is shorter than its bound is complete. -/
theorem ancestorsUpTo_succ (h : (t.ancestorsUpTo fuel id).length < fuel) :
    t.ancestorsUpTo (fuel + 1) id = t.ancestorsUpTo fuel id := by
  induction fuel generalizing id with
  | zero => simp at h
  | succ fuel ih =>
    cases hp : t.parent? id with
    | none => simp [ancestorsUpTo_of_none hp]
    | some p =>
      rw [ancestorsUpTo_of_parent hp] at h
      rw [ancestorsUpTo_of_parent hp, ancestorsUpTo_of_parent hp, ih (by simpa using h)]

/-- Different live nodes fit into the arena. -/
theorem length_le_size {ids : List NodeId} (hnodup : ids.Nodup) (hlive : ∀ x ∈ ids, ∃ n, t.get? x = some n) :
    ids.length ≤ t.nodes.size := by
  have hmap : (ids.map NodeId.index).Nodup :=
    List.pairwise_map.2 (hnodup.imp fun {a b} hne e => hne (by cases a; cases b; simp_all))
  have hsub : ids.map NodeId.index ⊆ List.range t.nodes.size := by
    intro i hi
    obtain ⟨x, hx, rfl⟩ := List.mem_map.1 hi
    obtain ⟨n, hn⟩ := hlive x hx
    exact List.mem_range.2 (lt_size_of_get? hn)
  simpa using hmap.length_le_of_subset hsub

namespace Consistent

theorem live_above (h : t.Consistent) (hid : t.get? id = some n) (hb : t.Below id top) :
    ∃ m, t.get? top = some m := by
  induction hb with
  | refl => exact ⟨n, hid⟩
  | tail _ hp _ => exact (h.parent_live hp).imp fun _ => And.left

/-- What hangs below two children of a node hangs below one. -/
theorem below_unique (h : t.Consistent) {x c' : NodeId} (hc : t.IsParent c p) (hc' : t.IsParent c' p)
    (hx : t.Below x c) (hx' : t.Below x c') : c = c' := by
  -- one child would have to be above its parent
  have no_cycle {a b : NodeId} (ha : t.IsParent a p) (hb : t.IsParent b p) (hab : t.Below a b) : a = b := by
    rcases Relation.ReflTransGen.cases_head hab with rfl | ⟨q, hq, hqb⟩
    · rfl
    · obtain rfl : q = p := Option.some.inj (hq.symm.trans ha)
      exact absurd (Relation.TransGen.head' hb hqb) (h.acyclic b)
  rcases below_total hx hx' with hbelow | hbelow
  · exact no_cycle hc hc' hbelow
  · exact (no_cycle hc' hc hbelow).symm

theorem nodup_ancestorsUpTo (h : t.Consistent) (fuel : Nat) (id : NodeId) :
    (id :: t.ancestorsUpTo fuel id).Nodup := by
  induction fuel generalizing id with
  | zero => simp [ancestorsUpTo]
  | succ fuel ih =>
    rw [List.nodup_cons]
    refine ⟨fun hmem => h.acyclic id (strictlyBelow_of_mem_ancestorsUpTo hmem), ?_⟩
    cases hp : t.parent? id with
    | none => simp [ancestorsUpTo_of_none hp]
    | some p => exact ancestorsUpTo_of_parent hp fuel ▸ ih p

theorem length_ancestorsUpTo_lt (h : t.Consistent) (hid : t.get? id = some n) (fuel : Nat) :
    (t.ancestorsUpTo fuel id).length < t.nodes.size := by
  refine length_le_size (h.nodup_ancestorsUpTo fuel id) fun x hx => ?_
  rcases List.mem_cons.1 hx with rfl | hx
  · exact ⟨n, hid⟩
  · exact h.live_above hid (strictlyBelow_of_mem_ancestorsUpTo hx).to_reflTransGen

theorem ancestors_of_parent (h : t.Consistent) (hp : t.IsParent c p) : t.ancestors c = p :: t.ancestors p := by
  obtain ⟨m, hm, -⟩ := parent?_eq_some_iff.1 hp
  obtain ⟨k, hk⟩ : ∃ k, t.nodes.size = k + 1 := Nat.exists_eq_succ_of_ne_zero (by have := lt_size_of_get? hm; omega)
  have hlt := h.length_ancestorsUpTo_lt hm (k + 1)
  rw [ancestorsUpTo_of_parent hp, List.length_cons, hk] at hlt
  rw [ancestors, ancestors, hk, ancestorsUpTo_of_parent hp, ancestorsUpTo_succ (by omega)]

theorem mem_ancestors_iff (h : t.Consistent) : top ∈ t.ancestors id ↔ t.StrictlyBelow id top := by
  refine ⟨strictlyBelow_of_mem_ancestorsUpTo, fun hb => ?_⟩
  induction hb using Relation.TransGen.head_induction_on with
  | single hp => simp [h.ancestors_of_parent hp]
  | head hp _ ih => simp [h.ancestors_of_parent hp, ih]

theorem isAncestor_iff (h : t.Consistent) : t.isAncestor top id = true ↔ t.StrictlyBelow id top := by
  simp [isAncestor, h.mem_ancestors_iff]

theorem live_of_reachable (h : t.Consistent) (hid : t.Reachable id) : ∃ n, t.get? id = some n := by
  obtain ⟨r, hr, hb⟩ := hid
  exact live_below hb ((h.root hr).imp fun _ => And.left)

theorem getLastD_ancestors (h : t.Consistent) {r : NodeId} (hroot : t.root = some r) (hb : t.Below id r) :
    (t.ancestors id).getLastD id = r := by
  induction hb using Relation.ReflTransGen.head_induction_on with
  | refl => rw [ancestors, ancestorsUpTo_of_none (h.parent?_root hroot), List.getLastD_nil]
  | head hp _ ih => rw [h.ancestors_of_parent hp, List.getLastD_cons, ih]

/-- The nodes that reach the root through their parent links are those that hang below it. -/
theorem isReachable_iff (h : t.Consistent) : t.isReachable id = true ↔ t.Reachable id := by
  simp only [isReachable, Bool.and_eq_true, beq_iff_eq]
  refine ⟨fun ⟨_, hroot⟩ => ⟨_, hroot, ?_⟩, ?_⟩
  · cases hanc : t.ancestors id with
    | nil => exact .refl
    | cons a rest =>
      have hmem : (a :: rest).getLastD id ∈ t.ancestors id := by
        rw [hanc, List.getLastD_cons]
        exact List.getLastD_mem_cons ..
      exact (h.mem_ancestors_iff.1 hmem).to_reflTransGen
  · rintro ⟨r, hr, hb⟩
    rw [h.getLastD_ancestors hr hb]
    obtain ⟨n, hn, -⟩ := h.root hr
    exact ⟨isLive_iff.2 ⟨n, hn⟩, hr⟩

end Consistent

/-! ## Downwards -/

/-- How many levels a node stands below the top of its tree. -/
def depth (t : Tree) (id : NodeId) : Nat := (t.ancestors id).length

namespace Consistent

theorem depth_of_parent (h : t.Consistent) (hp : t.IsParent c p) : t.depth c = t.depth p + 1 := by
  rw [depth, depth, h.ancestors_of_parent hp, List.length_cons]

theorem depth_lt_size (h : t.Consistent) (hid : t.get? id = some n) : t.depth id < t.nodes.size :=
  h.length_ancestorsUpTo_lt hid t.nodes.size

/-- A bounded walk from a live node visits what hangs below it, as far down as it may. -/
theorem walkUpTo_ok (h : t.Consistent) : ∀ (fuel : Nat) {id : NodeId} {n : Node}, t.get? id = some n →
    ∃ ids, t.walkUpTo fuel id = .ok ids ∧ (∀ x ∈ ids, t.Below x id) ∧
      ∀ x, t.Below x id → t.depth x < t.depth id + fuel → x ∈ ids
  | 0, id, n, hid => by
    refine ⟨[], rfl, by simp, fun x hx hlt => ?_⟩
    have hle : t.depth id ≤ t.depth x := by
      clear hlt
      induction hx using Relation.ReflTransGen.head_induction_on with
      | refl => exact Nat.le_refl _
      | head hp _ ih => exact Nat.le_trans ih (by rw [h.depth_of_parent hp]; omega)
    omega
  | fuel + 1, id, n, hid => by
    obtain ⟨below, hbelow, hback, hforth⟩ := mapM_ok (f := t.walkUpTo fuel) (l := n.children) fun c hc => by
      obtain ⟨m, hm, -⟩ := h.held hid hc
      exact h.walkUpTo_ok fuel hm
    refine ⟨id :: below.flatten, by rw [walkUpTo, node_of_get? hid, ok_bind, hbelow]; rfl, ?_, ?_⟩
    · intro x hx
      rcases List.mem_cons.1 hx with rfl | hx
      · exact .refl
      · obtain ⟨ids, hids, hx⟩ := List.mem_flatten.1 hx
        obtain ⟨c, hc, hP, -⟩ := hback ids hids
        exact (hP x hx).tail ((h.isParent_iff hid).2 hc)
    · intro x hx hlt
      rcases Relation.ReflTransGen.cases_tail hx with rfl | ⟨c, hxc, hp⟩
      · simp
      · obtain ⟨ids, hids, -, hP⟩ := hforth c ((h.isParent_iff hid).1 hp)
        have hmem := hP x hxc (by rw [h.depth_of_parent hp]; omega)
        exact List.mem_cons_of_mem _ (List.mem_flatten.2 ⟨ids, hids, hmem⟩)

theorem walk_ok (h : t.Consistent) (hid : t.get? id = some n) :
    ∃ ids, t.walk id = .ok ids ∧ ∀ x, x ∈ ids ↔ t.Below x id := by
  obtain ⟨ids, hids, hback, hforth⟩ := h.walkUpTo_ok (t.nodes.size + 1) hid
  refine ⟨ids, hids, fun x => ⟨hback x, fun hx => hforth x hx ?_⟩⟩
  obtain ⟨m, hm⟩ := live_below hx ⟨n, hid⟩
  have := h.depth_lt_size hm
  omega

/-- **A walk visits exactly what hangs below the node it starts at.** -/
theorem mem_walk_iff (h : t.Consistent) {ids : List NodeId} (hwalk : t.walk id = .ok ids) {x : NodeId} :
    x ∈ ids ↔ t.Below x id := by
  cases hid : t.get? id with
  | none =>
    have hnode : t.node id = .error (.staleNode id) := node_eq_error_iff.2 ⟨hid, rfl⟩
    rw [walk, walkUpTo, hnode, error_bind] at hwalk
    cases hwalk
  | some n =>
    obtain ⟨ids', hids', hmem⟩ := h.walk_ok hid
    rw [hwalk, Except.ok.injEq] at hids'
    exact hids' ▸ hmem x

theorem anyOperandUpTo_ok (h : t.Consistent) (test : Node → Bool) : ∀ (fuel : Nat) {id : NodeId} {n : Node},
    t.get? id = some n → ∃ b, t.anyOperandUpTo test fuel id = .ok b
  | 0, _, _, _ => ⟨false, rfl⟩
  | fuel + 1, id, n, hid => by
    have hchildren : ∃ b, n.children.anyM (t.anyOperandUpTo test fuel) = .ok b := anyM_ok fun c hc => by
      obtain ⟨m, hm, -⟩ := h.held hid hc
      exact h.anyOperandUpTo_ok test fuel hm
    rw [anyOperandUpTo, node_of_get? hid, ok_bind]
    split
    · exact ⟨true, rfl⟩
    · split
      · exact ⟨false, rfl⟩
      · exact hchildren

theorem anyOperand_ok (h : t.Consistent) (test : Node → Bool) (hid : t.get? id = some n) :
    ∃ b, t.anyOperand test id = .ok b :=
  h.anyOperandUpTo_ok test _ hid

theorem isObservable_ok (h : t.Consistent) (hid : t.get? id = some n) : ∃ b, t.isObservable id = .ok b := by
  obtain ⟨effects, heffects⟩ := h.anyOperand_ok (·.capabilities.sideEffects) hid
  rw [isObservable, mayHaveSideEffects, heffects, ok_bind]
  split
  · exact ⟨true, rfl⟩
  · exact h.anyOperand_ok _ hid

theorem firstScope_ok : ∀ {ids : List NodeId}, (∀ x ∈ ids, ∃ n, t.get? x = some n) →
    ∃ scope?, t.firstScope ids = .ok scope? ∧ ∀ s, scope? = some s → ∃ n, t.get? s = some n
  | [], _ => ⟨none, rfl, by simp⟩
  | id :: rest, hlive => by
    obtain ⟨n, hn⟩ := hlive id (by simp)
    rw [firstScope, kind, node_of_get? hn]
    simp only [ok_bind, except_pure]
    split
    · exact ⟨some id, rfl, by rintro _ ⟨⟩; exact ⟨n, hn⟩⟩
    · exact firstScope_ok fun x hx => hlive x (by simp [hx])

theorem providerOf_ok (h : t.Consistent) (hid : t.get? id = some n) :
    ∃ scope?, t.providerOf id = .ok scope? ∧ ∀ s, scope? = some s → ∃ n, t.get? s = some n := by
  rw [providerOf, node_of_get? hid, ok_bind]
  exact firstScope_ok fun x hx => h.live_above hid (h.mem_ancestors_iff.1 hx).to_reflTransGen

end Consistent

/-! ## Validation -/

/-- Every slot of a node that has to be filled is filled. -/
def Complete (t : Tree) (id : NodeId) : Prop := ∀ n, t.get? id = some n → checkSlots n.kind n.slots = .ok ()

theorem ensureLinked_ok : ∀ {ids : List NodeId}, (∀ c ∈ ids, ∃ m, t.get? c = some m ∧ m.parent = some p) →
    t.ensureLinked p ids = .ok ()
  | [], _ => rfl
  | c :: rest, h => by
    obtain ⟨m, hm, hp⟩ := h c (by simp)
    rw [ensureLinked, node_of_get? hm, ok_bind, if_pos hp]
    exact ensureLinked_ok fun x hx => h x (List.mem_cons_of_mem c hx)

/-- What validation has found so far: nothing is listed twice, and what is listed hangs from the root by nodes that
have been checked. -/
structure Found (t : Tree) (root : NodeId) (seen pending : List NodeId) : Prop where
  nodup : (seen ++ pending).Nodup
  live : ∀ x ∈ seen ++ pending, ∃ n, t.get? x = some n
  linked : ∀ x ∈ seen ++ pending, x = root ∨ ∃ p ∈ seen, t.IsParent x p
  below : ∀ x ∈ seen ++ pending, t.Below x root
  root : root ∈ seen ++ pending
  closed : ∀ p ∈ seen, ∀ x, t.IsParent x p → x ∈ seen ++ pending

namespace Found

variable {root : NodeId} {seen pending : List NodeId}

/-- At the start the root is all there is to check. -/
theorem start (hroot : t.get? root = some n) : t.Found root [] [root] := by
  refine ⟨by simp, by simpa using ⟨n, hroot⟩, by simp, ?_, by simp, by simp⟩
  intro x hx
  obtain rfl : x = root := by simpa using hx
  exact .refl

theorem notMem_seen (h : t.Found root seen (id :: pending)) : id ∉ seen := by
  intro hmem
  exact (List.nodup_append.1 h.nodup).2.2 id hmem id (by simp) rfl

/-- Checking a node replaces it by its children. -/
theorem step (h : t.Found root seen (id :: pending)) (hc : t.Consistent) (hroot : t.parent? root = none)
    (hid : t.get? id = some n) : t.Found root (id :: seen) (n.children.reverse ++ pending) := by
  have hmem (x : NodeId) :
      x ∈ id :: seen ++ (n.children.reverse ++ pending) ↔ x ∈ seen ++ id :: pending ∨ x ∈ n.children := by
    simp only [List.mem_append, List.mem_cons, List.mem_reverse]
    grind
  have hfresh : ∀ c ∈ n.children, c ∉ seen ++ id :: pending := by
    intro c hchild hold
    have hp : t.IsParent c id := (hc.isParent_iff hid).2 hchild
    rcases h.linked c hold with rfl | ⟨p, hpseen, hcp⟩
    · rw [IsParent, hroot] at hp
      cases hp
    · obtain rfl := hcp.unique hp
      exact h.notMem_seen hpseen
  constructor
  · have hold := h.nodup
    have hnew : n.children.reverse.Nodup := (List.reverse_perm _).nodup_iff.2 (hc.nodup_children hid)
    simp only [List.cons_append, List.nodup_cons, List.nodup_append, List.mem_append, List.mem_reverse] at hold ⊢
    grind
  · intro x hx
    rcases (hmem x).1 hx with hx | hx
    · exact h.live x hx
    · exact (hc.held hid hx).imp fun _ => And.left
  · intro x hx
    rcases (hmem x).1 hx with hx | hx
    · rcases h.linked x hx with hx | ⟨p, hp, hxp⟩
      · exact Or.inl hx
      · exact Or.inr ⟨p, List.mem_cons_of_mem id hp, hxp⟩
    · exact Or.inr ⟨id, by simp, (hc.isParent_iff hid).2 hx⟩
  · intro x hx
    rcases (hmem x).1 hx with hx | hx
    · exact h.below x hx
    · exact .head ((hc.isParent_iff hid).2 hx) (h.below id (by simp))
  · exact (hmem root).2 (Or.inl h.root)
  · intro p hp x hx
    refine (hmem x).2 ?_
    rcases List.mem_cons.1 hp with rfl | hp
    · exact Or.inr ((hc.isParent_iff hid).1 hx)
    · exact Or.inl (h.closed p hp x hx)

/-- When nothing is pending, everything below the root has been checked. -/
theorem mem_seen (h : t.Found root seen []) (hb : t.Below id root) : id ∈ seen := by
  induction hb using Relation.ReflTransGen.head_induction_on with
  | refl => simpa using h.root
  | head hp _ ih => simpa using h.closed _ ih _ hp

end Found

theorem Consistent.validateFrom_eq_ok_iff (h : t.Consistent) {root : NodeId} (hroot : t.parent? root = none) :
    ∀ {fuel : Nat} {seen pending : List NodeId}, t.Found root seen pending → seen.length + fuel = t.nodes.size + 1 →
      (t.validateFrom fuel seen pending = .ok () ↔ ∀ x, t.Below x root → x ∉ seen → t.Complete x)
  | fuel, seen, [], hf, _ => by
    have hleft : t.validateFrom fuel seen [] = .ok () := by cases fuel <;> rfl
    simp only [hleft, true_iff]
    exact fun x hx hnot => absurd (hf.mem_seen hx) hnot
  | 0, seen, id :: pending, hf, hlen => by
    have := length_le_size (List.nodup_append.1 hf.nodup).1 fun x hx => hf.live x (by simp [hx])
    omega
  | fuel + 1, seen, id :: pending, hf, hlen => by
    obtain ⟨n, hid⟩ := hf.live id (by simp)
    have hnot := hf.notMem_seen
    have hlinked : t.ensureLinked id n.children = .ok () := ensureLinked_ok fun c hc => h.held hid hc
    have ih := h.validateFrom_eq_ok_iff hroot (hf.step h hroot hid)
      (show (id :: seen).length + fuel = t.nodes.size + 1 by rw [List.length_cons]; omega)
    rw [validateFrom, if_neg hnot, node_of_get? hid]
    simp only [ok_bind, hlinked]
    cases hslots : checkSlots n.kind n.slots with
    | error e =>
      simp only [error_bind, reduceCtorEq, false_iff]
      intro hall
      have := hall id (hf.below id (by simp)) hnot n hid
      rw [hslots] at this
      cases this
    | ok u =>
      rw [ok_bind, ih]
      constructor
      · intro hall x hx hxnot
        by_cases hxid : x = id
        · subst hxid
          intro m hm
          rw [hid, Option.some.injEq] at hm
          exact hm ▸ hslots
        · exact hall x hx (by simp [hxid, hxnot])
      · exact fun hall x hx hxnot => hall x hx fun hmem => hxnot (List.mem_cons_of_mem id hmem)

/-- **Validation accepts exactly the trees with a root and no required slot empty anywhere below it.** -/
theorem Consistent.validate_eq_ok_iff (h : t.Consistent) :
    t.validate = .ok () ↔ ∃ r, t.root = some r ∧ ∀ x, t.Below x r → t.Complete x := by
  unfold validate
  cases hr : t.root with
  | none => simp
  | some r =>
    obtain ⟨n, hn, hp⟩ := h.root hr
    have := h.validateFrom_eq_ok_iff (h.parent?_root hr) (.start hn)
      (show [].length + (t.nodes.size + 1) = t.nodes.size + 1 by simp)
    simp only [node_of_get? hn, ok_bind, hp, Option.some.injEq, exists_eq_left']
    simpa using this

end Specializer.Tree
