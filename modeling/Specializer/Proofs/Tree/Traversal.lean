import Mathlib.Data.List.Forall2
import Specializer.Proofs.Tree.Operation
import Specializer.Proofs.Tree.Subtree

/-!
# Upwards and downwards

Parent links lead upwards and slots lead downwards. The walks along them are loops without a bound of their own; that
they end, and that both directions tell the same, is due to the invariant of the arena.

* `Climbs` is a climb along parent links to its end. Every node has one, and it lists the ancestors of the node
  (`Consistent.climbs_ancestors`).
* `Walks` is a walk downwards with a stack of pending nodes. The walk from a live node ends, and lists what
  `Tree.walk` returns (`Consistent.walks_walk`).
* `InTreeOrder` is the order in which a walk lists nodes: parents first, then the children in slot order, each with
  everything below it (`Consistent.inTreeOrder_walk`).

The main statement puts the two directions together for every tree that operations build (`Built.traversals_agree`).
-/

namespace Specializer.Tree

variable {t : Tree} {id x : NodeId} {n : Node}

/-! ## Climbing -/

/-- The parent links lead from a node over the listed nodes, one after the other, to a node without a parent. -/
inductive Climbs (t : Tree) : NodeId → List NodeId → Prop where
  | top {id : NodeId} (hid : t.parent? id = none) : Climbs t id []
  | up {id p : NodeId} {above : List NodeId} (hid : t.parent? id = some p) (rest : Climbs t p above) :
    Climbs t id (p :: above)

/-- **Every climb ends**, also one from a handle that is stale or was never given out, and passes the ancestors. -/
theorem Consistent.climbs_ancestors (h : t.Consistent) (id : NodeId) : t.Climbs id (t.ancestors id) := by
  generalize habove : t.ancestors id = above
  induction above generalizing id with
  | nil =>
    apply Climbs.top
    cases hp : t.parent? id with
    | none => rfl
    | some p =>
      rw [h.ancestors_of_parent hp] at habove
      cases habove
  | cons a above ih =>
    cases hp : t.parent? id with
    | none =>
      rw [ancestors, ancestorsUpTo_of_none hp] at habove
      cases habove
    | some p =>
      rw [h.ancestors_of_parent hp] at habove
      obtain ⟨rfl, hrest⟩ := List.cons.inj habove
      exact .up hp (ih p hrest)

theorem Consistent.below_iff_ancestors (h : t.Consistent) : t.Below x id ↔ x = id ∨ id ∈ t.ancestors x := by
  rw [h.mem_ancestors_iff, eq_comm]
  exact Relation.reflTransGen_iff_eq_or_transGen

/-- Whether a live node owns variables. -/
def holdsScope (t : Tree) (id : NodeId) : Bool := (t.get? id).any (·.kind.isScope)

theorem firstScope_eq_find? {ids : List NodeId} (hlive : ∀ x ∈ ids, ∃ n, t.get? x = some n) :
    t.firstScope ids = .ok (ids.find? t.holdsScope) := by
  induction ids with
  | nil => rfl
  | cons id ids ih =>
    obtain ⟨n, hn⟩ := hlive id (by simp)
    have hscope : t.holdsScope id = n.kind.isScope := by simp [holdsScope, hn]
    rw [firstScope, kind, node_of_get? hn, List.find?_cons, hscope]
    simp only [ok_bind, except_pure]
    cases n.kind.isScope with
    | true => rfl
    | false => exact ih fun x hx => hlive x (by simp [hx])

/-- The closest scope around a node is the first one on the climb from it. -/
theorem Consistent.providerOf_eq_find? (h : t.Consistent) (hid : t.get? id = some n) :
    t.providerOf id = .ok ((t.ancestors id).find? t.holdsScope) := by
  rw [providerOf, node_of_get? hid, ok_bind]
  apply firstScope_eq_find?
  intro x hx
  exact h.live_above hid (h.mem_ancestors_iff.1 hx).to_reflTransGen

/-! ## Walking -/

/-- A walk downwards: the first pending node is listed, and its children are pending before all others. -/
inductive Walks (t : Tree) : List NodeId → List NodeId → Prop where
  | done : Walks t [] []
  | next {id : NodeId} {n : Node} {pending order : List NodeId} (hid : t.get? id = some n)
    (rest : Walks t (n.children ++ pending) order) : Walks t (id :: pending) (id :: order)

/-- Right after each node of the list stand the nodes below it: a block for each child, in slot order, that holds the
child and everything below it. -/
def InTreeOrder (t : Tree) (ids : List NodeId) : Prop :=
  ∀ p ∈ ids, ∀ n, t.get? p = some n → ∃ before blocks after, ids = before ++ p :: (blocks.flatten ++ after) ∧
    List.Forall₂ (fun child block => ∀ x, x ∈ block ↔ t.Below x child) n.children blocks

theorem forall₂_of_mapM {ε α β : Type} {f : α → Except ε β} {l : List α} {ys : List β} (h : l.mapM f = .ok ys) :
    List.Forall₂ (fun x y => f x = .ok y) l ys := by
  induction l generalizing ys with
  | nil =>
    cases h
    exact .nil
  | cons x l ih =>
    rw [List.mapM_cons] at h
    obtain ⟨y, hy, h⟩ := bind_eq_ok_iff.1 h
    obtain ⟨ys', hys, h⟩ := bind_eq_ok_iff.1 h
    cases h
    exact .cons hy (ih hys)

namespace Consistent

/-- What holds of a node whenever it holds of its children holds of every node: levels are finitely many. -/
theorem bottom_up {P : NodeId → Prop} (h : t.Consistent)
    (step : ∀ {id n}, t.get? id = some n → (∀ c ∈ n.children, P c) → P id) (hid : t.get? id = some n) : P id := by
  have key (levels : Nat) : ∀ {id n}, t.get? id = some n → t.nodes.size ≤ t.depth id + levels → P id := by
    induction levels with
    | zero =>
      intro id n hid hdepth
      have := h.depth_lt_size hid
      omega
    | succ levels ih =>
      intro id n hid hdepth
      apply step hid
      intro c hc
      obtain ⟨m, hm, -⟩ := h.held hid hc
      have hbelow := h.depth_of_parent ((h.isParent_iff hid).2 hc)
      exact ih hm (by omega)
  exact key t.nodes.size hid (by omega)

/-- The walks from the children of a node, one for each. -/
theorem walk_blocks (h : t.Consistent) (hid : t.get? id = some n) : ∃ blocks,
    t.walk id = .ok (id :: blocks.flatten) ∧ List.Forall₂ (fun c block => t.walk c = .ok block) n.children blocks ∧
      ∀ y ∈ blocks.flatten, t.StrictlyBelow y id := by
  obtain ⟨blocks, hblocks, hwalk, hbelow⟩ := h.walk_cons hid
  exact ⟨blocks, hwalk, forall₂_of_mapM hblocks, hbelow⟩

/-- **Every walk from a live node ends**, and has then listed the node and everything below it. -/
theorem walks_walk (h : t.Consistent) {ids pending order : List NodeId} (hid : t.get? id = some n)
    (hwalk : t.walk id = .ok ids) (hrest : t.Walks pending order) : t.Walks (id :: pending) (ids ++ order) := by
  refine h.bottom_up (P := fun id => ∀ ids pending order, t.walk id = .ok ids → t.Walks pending order →
    t.Walks (id :: pending) (ids ++ order)) ?_ hid ids pending order hwalk hrest
  intro id n hid ih ids pending order hwalk hrest
  obtain ⟨blocks, hblocks, hchildren, -⟩ := h.walk_blocks hid
  cases hwalk.symm.trans hblocks
  apply Walks.next hid
  change t.Walks (n.children ++ pending) (blocks.flatten ++ order)
  -- the children are pending, and one after the other gives way to its block
  generalize hcs : n.children = cs at hchildren ih
  clear hblocks hwalk hcs
  induction hchildren with
  | nil => exact hrest
  | @cons c block cs blocks hc _ ihs =>
    rw [List.flatten_cons, List.append_assoc]
    exact ih c (by simp) block _ _ hc (ihs fun c' hc' => ih c' (by simp [hc']))

/-- **A walk lists nothing twice.** -/
theorem nodup_walk (h : t.Consistent) {ids : List NodeId} (hid : t.get? id = some n) (hwalk : t.walk id = .ok ids) :
    ids.Nodup := by
  refine h.bottom_up (P := fun id => ∀ ids, t.walk id = .ok ids → ids.Nodup) ?_ hid ids hwalk
  intro id n hid ih ids hwalk
  obtain ⟨blocks, hblocks, hchildren, hbelow⟩ := h.walk_blocks hid
  cases hwalk.symm.trans hblocks
  have hparent : ∀ c ∈ n.children, t.IsParent c id := fun c => (h.isParent_iff hid).2
  have hnodup := h.nodup_children hid
  -- what the walks from two children have in common would hang below both
  have key : blocks.flatten.Nodup ∧ ∀ x ∈ blocks.flatten, ∃ c ∈ n.children, t.Below x c := by
    generalize n.children = cs at hchildren ih hparent hnodup
    clear hblocks hwalk hbelow
    induction hchildren with
    | nil => simp
    | @cons c block cs blocks hc _ ihs =>
      obtain ⟨hfresh, hnodup⟩ := List.nodup_cons.1 hnodup
      obtain ⟨hrest, hmem⟩ :=
        ihs (fun c' hc' => ih c' (by simp [hc'])) (fun c' hc' => hparent c' (by simp [hc'])) hnodup
      constructor
      · rw [List.flatten_cons, List.nodup_append]
        refine ⟨ih c (by simp) block hc, hrest, ?_⟩
        rintro x hx _ hx' rfl
        obtain ⟨c', hc', hbelow⟩ := hmem x hx'
        have heq : c = c' :=
          h.below_unique (hparent c (by simp)) (hparent c' (by simp [hc'])) ((h.mem_walk_iff hc).1 hx) hbelow
        exact hfresh (heq ▸ hc')
      · intro x hx
        rw [List.flatten_cons, List.mem_append] at hx
        rcases hx with hx | hx
        · exact ⟨c, by simp, (h.mem_walk_iff hc).1 hx⟩
        · obtain ⟨c', hc', hbelow⟩ := hmem x hx
          exact ⟨c', by simp [hc'], hbelow⟩
  exact List.nodup_cons.2 ⟨fun hmem => h.acyclic id (hbelow id hmem), key.1⟩

end Consistent

theorem InTreeOrder.append {ids ids' : List NodeId} (h : t.InTreeOrder ids) (h' : t.InTreeOrder ids') :
    t.InTreeOrder (ids ++ ids') := by
  intro p hp n hn
  rcases List.mem_append.1 hp with hp | hp
  · obtain ⟨before, blocks, after, heq, hblocks⟩ := h p hp n hn
    exact ⟨before, blocks, after ++ ids', by simp [heq], hblocks⟩
  · obtain ⟨before, blocks, after, heq, hblocks⟩ := h' p hp n hn
    exact ⟨ids ++ before, blocks, after, by simp [heq], hblocks⟩

/-- **A walk lists parents first, and the subtrees of siblings one after the other in slot order.** -/
theorem Consistent.inTreeOrder_walk (h : t.Consistent) {ids : List NodeId} (hid : t.get? id = some n)
    (hwalk : t.walk id = .ok ids) : t.InTreeOrder ids := by
  refine h.bottom_up (P := fun id => ∀ ids, t.walk id = .ok ids → t.InTreeOrder ids) ?_ hid ids hwalk
  intro id n hid ih ids hwalk
  obtain ⟨blocks, hblocks, hchildren, hbelow⟩ := h.walk_blocks hid
  cases hwalk.symm.trans hblocks
  have hordered : t.InTreeOrder blocks.flatten := by
    generalize n.children = cs at hchildren ih
    clear hblocks hwalk hbelow
    induction hchildren with
    | nil => exact fun p hp => nomatch hp
    | @cons c block cs blocks hc _ ihs =>
      exact (ih c (by simp) block hc).append (ihs fun c' hc' => ih c' (by simp [hc']))
  intro p hp m hm
  rcases List.mem_cons.1 hp with rfl | hp
  · obtain rfl : n = m := Option.some.inj (hid.symm.trans hm)
    exact ⟨[], blocks, [], by simp, hchildren.imp fun c block hc x => h.mem_walk_iff hc⟩
  · obtain ⟨before, blocks', after, heq, hblocks'⟩ := hordered p hp m hm
    exact ⟨id :: before, blocks', after, by simp [heq], hblocks'⟩

/-! ## Both directions -/

/-- A walk from the root finds exactly what reaches it by climbing. -/
theorem Consistent.isReachable_iff_walk (h : t.Consistent) :
    t.isReachable id = true ↔ ∃ r ids, t.root = some r ∧ t.walk r = .ok ids ∧ id ∈ ids := by
  rw [h.isReachable_iff]
  constructor
  · rintro ⟨r, hr, hb⟩
    obtain ⟨n, hn, -⟩ := h.root hr
    obtain ⟨ids, hwalk, hmem⟩ := h.walk_ok hn
    exact ⟨r, ids, hr, hwalk, (hmem id).2 hb⟩
  · rintro ⟨r, ids, hr, hwalk, hid⟩
    exact ⟨r, hr, (h.mem_walk_iff hwalk).1 hid⟩

/-- **Upwards and downwards agree.** In every tree that operations build, every climb ends; the walk from a live node
ends, lists nothing twice and in tree order, and finds exactly the nodes whose climb passes the node; a handle is
reachable exactly if there is a root and the walk from it finds the handle; and the closest scope around a live node is
the first one on the climb. -/
theorem Built.traversals_agree (h : t.Built) :
    (∀ id, t.Climbs id (t.ancestors id)) ∧
      (∀ start n, t.get? start = some n → ∃ ids, t.walk start = .ok ids ∧ t.Walks [start] ids ∧ ids.Nodup ∧
        t.InTreeOrder ids ∧ ∀ x, x ∈ ids ↔ x = start ∨ start ∈ t.ancestors x) ∧
      (∀ id, t.isReachable id = true ↔ ∃ r ids, t.root = some r ∧ t.walk r = .ok ids ∧ id ∈ ids) ∧
      ∀ id n, t.get? id = some n → t.providerOf id = .ok ((t.ancestors id).find? t.holdsScope) := by
  have hc := h.consistent
  refine ⟨hc.climbs_ancestors, fun start n hn => ?_, fun id => hc.isReachable_iff_walk,
    fun id n => hc.providerOf_eq_find?⟩
  obtain ⟨ids, hwalk, hmem⟩ := hc.walk_ok hn
  have hends : t.Walks [start] (ids ++ []) := hc.walks_walk hn hwalk .done
  rw [List.append_nil] at hends
  exact ⟨ids, hwalk, hends, hc.nodup_walk hn hwalk, hc.inTreeOrder_walk hn hwalk,
    fun x => (hmem x).trans hc.below_iff_ancestors⟩

/-- A module with a class and a constant in it, a handle that is stale (`#9`) and a node that hangs nowhere (`#10`). -/
def nestedScopes : Tree :=
  .applyAll {} [
    .newNode .module default (.scope "m") [.one none],
    .newNode .classBody default (.scope "C") [.one none],
    .newNode .constantRef default (.constant (.str "a")) [],
    .newNode .statementExpressionOnly default .none [.filled ⟨2⟩],
    .newNode .statementsSequence default .none [.many [⟨3⟩]],
    .setBody ⟨1⟩ ⟨4⟩,
    .newNode .statementExpressionOnly default .none [.filled ⟨1⟩],
    .newNode .constantRef default (.constant (.str "b")) [],
    .newNode .statementExpressionOnly default .none [.filled ⟨6⟩],
    .newNode .statementsSequence default .none [.many [⟨5⟩, ⟨7⟩]],
    .setBody ⟨0⟩ ⟨8⟩,
    .setRoot ⟨0⟩,
    .newNode .constantRef default (.constant .none) [],
    .finalize ⟨9⟩,
    .newNode .constantRef default (.constant .none) []]

theorem traversals_agree_nestedScopes : nestedScopes.Built ∧
    (∃ ids, ids = [⟨0⟩, ⟨8⟩, ⟨5⟩, ⟨1⟩, ⟨4⟩, ⟨3⟩, ⟨2⟩, ⟨7⟩, ⟨6⟩] ∧ nestedScopes.walk ⟨0⟩ = .ok ids ∧
      nestedScopes.Walks [⟨0⟩] ids ∧ ids.Nodup ∧ nestedScopes.InTreeOrder ids ∧
      (∀ x, x ∈ ids ↔ x = ⟨0⟩ ∨ ⟨0⟩ ∈ nestedScopes.ancestors x) ∧
      ∀ id, nestedScopes.isReachable id = true ↔ id ∈ ids) ∧
    nestedScopes.Climbs ⟨2⟩ [⟨3⟩, ⟨4⟩, ⟨1⟩, ⟨5⟩, ⟨8⟩, ⟨0⟩] ∧ nestedScopes.providerOf ⟨2⟩ = .ok (some ⟨1⟩) := by
  have hbuilt : nestedScopes.Built := ⟨_, rfl⟩
  have hnode (id : NodeId) (h : nestedScopes.isLive id = true) : ∃ n, nestedScopes.get? id = some n := isLive_iff.1 h
  obtain ⟨hclimbs, hwalks, hreachable, hprovider⟩ := hbuilt.traversals_agree
  refine ⟨hbuilt, ?_, ?_, ?_⟩
  · obtain ⟨n, hn⟩ := hnode ⟨0⟩ (by decide +kernel)
    obtain ⟨ids, hwalk, hends, hnodup, horder, hmem⟩ := hwalks ⟨0⟩ n hn
    have hwalk' : nestedScopes.walk ⟨0⟩ = .ok [⟨0⟩, ⟨8⟩, ⟨5⟩, ⟨1⟩, ⟨4⟩, ⟨3⟩, ⟨2⟩, ⟨7⟩, ⟨6⟩] := by decide +kernel
    have hroot : nestedScopes.root = some ⟨0⟩ := by decide +kernel
    refine ⟨ids, Except.ok.inj (hwalk.symm.trans hwalk'), hwalk, hends, hnodup, horder, hmem, fun id => ?_⟩
    rw [hreachable, hroot]
    simp [hwalk]
  · have habove : nestedScopes.ancestors ⟨2⟩ = [⟨3⟩, ⟨4⟩, ⟨1⟩, ⟨5⟩, ⟨8⟩, ⟨0⟩] := by decide +kernel
    exact habove ▸ hclimbs ⟨2⟩
  · obtain ⟨n, hn⟩ := hnode ⟨2⟩ (by decide +kernel)
    have hfirst : (nestedScopes.ancestors ⟨2⟩).find? nestedScopes.holdsScope = some ⟨1⟩ := by decide +kernel
    rw [hprovider ⟨2⟩ n hn, hfirst]

end Specializer.Tree
