import Specializer.Proofs.Replacement.Settling

/-!
# Walks that change nothing

A walk of a unit that announces no change looks at the nodes of `Tree.tour`, in this order: all nodes of the unit, but in
a sequence of statements nothing after control has ended. Such a walk leaves every node on its tour idle
(`visit_quiet`), because what is done later in the walk is not within the nodes that were left before. Conversely, a
walk whose nodes are all idle and no import of which can be made static does nothing at all (`visit_rests`).
-/

namespace Specializer

/-! ## Tours -/

/-- The nodes a walk looks at, and whether control ends on the way. -/
structure Tour where
  nodes : List NodeId
  aborted : Bool

/-- The tours through some children; in a sequence, the first end of control is the end. -/
def Tour.through (visit : Bool → NodeId → Tour) (inSequence : Bool) : Bool → List NodeId → Tour
  | aborted, [] => ⟨[], aborted⟩
  | aborted, child :: rest =>
    if inSequence && aborted then ⟨[], aborted⟩
    else
      let first := visit aborted child
      let others := through visit inSequence first.aborted rest
      ⟨first.nodes ++ others.nodes, others.aborted⟩

namespace Tree

/-- The nodes a walk of a unit looks at from a node on, at most `fuel` levels deep. -/
def tourUpTo (t : Tree) (unit : NodeId) : Nat → Bool → NodeId → Tour
  | 0, aborted, _ => ⟨[], aborted⟩
  | fuel + 1, aborted, id =>
    match t.get? id with
    | none => ⟨[], aborted⟩
    | some n =>
      if id ≠ unit ∧ n.kind = .functionBody then ⟨[id], aborted⟩
      else
        let below := Tour.through (t.tourUpTo unit fuel) (n.kind = .statementsSequence) aborted n.children
        if id = unit then below else ⟨id :: below.nodes, below.aborted || n.kind = .raiseException⟩

section Levels

variable {t : Tree} {unit id : NodeId} {n : Node} (fuel : Nat) (aborted : Bool)

theorem tourUpTo_unit (hn : t.get? unit = some n) : t.tourUpTo unit (fuel + 1) aborted unit =
    Tour.through (t.tourUpTo unit fuel) (n.kind = .statementsSequence) aborted n.children := by
  simp [tourUpTo, hn]

theorem tourUpTo_function (hn : t.get? id = some n) (hid : id ≠ unit) (hkind : n.kind = .functionBody) :
    t.tourUpTo unit (fuel + 1) aborted id = ⟨[id], aborted⟩ := by
  simp [tourUpTo, hn, hid, hkind]

theorem tourUpTo_node (hn : t.get? id = some n) (hid : id ≠ unit) (hkind : n.kind ≠ .functionBody) :
    t.tourUpTo unit (fuel + 1) aborted id =
      let below := Tour.through (t.tourUpTo unit fuel) (n.kind = .statementsSequence) aborted n.children
      ⟨id :: below.nodes, below.aborted || n.kind = .raiseException⟩ := by
  simp [tourUpTo, hn, hid, hkind]

end Levels

/-- The nodes a walk of a unit looks at. -/
def tour (t : Tree) (unit : NodeId) : List NodeId := (t.tourUpTo unit (ReplaceM.depthBound t) false unit).nodes

theorem tourUpTo_of_plain {t t' : Tree} (h : t'.plain = t.plain) (unit : NodeId) (fuel : Nat) (aborted : Bool) (id : NodeId) :
    t'.tourUpTo unit fuel aborted id = t.tourUpTo unit fuel aborted id := by
  induction fuel generalizing aborted id with
  | zero => rfl
  | succ fuel ih =>
    have hbelow : t'.tourUpTo unit fuel = t.tourUpTo unit fuel := by
      funext aborted id
      exact ih aborted id
    cases hn : t.get? id with
    | none =>
      have hn' : t'.get? id = none := by
        have hplain : t'.plain.get? id = t.plain.get? id := by rw [h]
        simpa [hn] using hplain
      simp only [tourUpTo, hn, hn']
    | some n =>
      obtain ⟨n', hn', hplain⟩ := get?_of_plain h hn
      have hkind : n'.kind = n.kind := (congrArg Node.kind hplain :)
      have hchildren : n'.children = n.children := (congrArg Node.children hplain :)
      simp only [tourUpTo, hn, hn', hkind, hchildren, hbelow]

end Tree

namespace ReplaceM

open Specializer.Tree

variable {s : Settings} {t t' : Tree} {w w' : Workspace} {id id' unit parent : NodeId} {n : Node} {fuel : Nat}

/-! ## Walks are tame -/

theorem tame_visitChildren {visit : NodeId → ReplaceM Unit} (hvisit : ∀ child, Tame (visit child)) (parent : NodeId)
    (inSequence : Bool) : ∀ children : List NodeId, Tame (visitChildren visit parent inSequence children)
  | [] => .ret ()
  | child :: rest => by
    refine .bind .get fun w => ?_
    split
    · exact .ret ()
    refine .bind .tree fun t => ?_
    split
    · exact .bind (hvisit child) fun _ => tame_visitChildren hvisit parent inSequence rest
    · exact tame_visitChildren hvisit parent inSequence rest

/-- What a walk does with a node that is in its place. -/
def visitEntered (unit : NodeId) (fuel : Nat) (current : NodeId) : ReplaceM NodeId := do
  let n ← ask (·.node current)
  if n.kind = .functionBody ∧ current ≠ unit then return current
  visitChildren (fun child => discard (visit unit fuel child)) current (n.kind = .statementsSequence) n.children
  if current = unit then return current
  applyComputed current (← computeNode current)

theorem visit_succ (unit : NodeId) (fuel : Nat) (id : NodeId) : visit unit (fuel + 1) id =
    if id = unit then visitEntered unit fuel id else enterNode id >>= visitEntered unit fuel := by
  rw [visit]
  split <;> rfl

theorem tame_visitEntered_of (hvisit : ∀ child, Tame (visit unit fuel child)) (current : NodeId) :
    Tame (visitEntered unit fuel current) := by
  refine .bind (.ask _) fun n => ?_
  split
  · exact .ret _
  refine .bind (tame_visitChildren (fun child => (hvisit child).discarded) ..) fun _ => ?_
  split
  · exact .ret _
  · exact .bind (tame_computeNode current) tame_applyComputed

theorem tame_visit (unit : NodeId) (fuel : Nat) (id : NodeId) : Tame (visit unit fuel id) := by
  induction fuel generalizing id with
  | zero => exact .fail _
  | succ fuel ih =>
    rw [visit_succ]
    split
    · exact tame_visitEntered_of ih id
    · exact .bind (tame_enterNode id) (tame_visitEntered_of ih)

theorem tame_visitEntered (unit : NodeId) (fuel : Nat) (id : NodeId) : Tame (visitEntered unit fuel id) :=
  tame_visitEntered_of (tame_visit unit fuel) id

/-! ## Idle nodes -/

/-- A node is left alone by the visitors, if it is no import that can be made static, and by its computation, as long as
nothing new is learnt about the nodes within. -/
structure Idle (s : Settings) (unit : NodeId) (t : Tree) (id : NodeId) : Prop where
  enter : ∀ t', t'.Consistent → t'.plain = t.plain → Spares s t' id → Rests s t' (enterNode id) id false
  compute : ∀ n, t.get? id = some n → n.kind ≠ .functionBody → ∀ t', t'.Consistent → t'.plain = t.plain →
    (∀ y, t.Within unit id y → t'.get? y = t.get? y) →
    Rests s t' (computeNode id >>= applyComputed id) id (n.kind = .raiseException)

theorem Idle.frame (h : Idle s unit t id) (hplain : t'.plain = t.plain)
    (hsame : ∀ y, t.Within unit id y → t'.get? y = t.get? y) : Idle s unit t' id := by
  refine ⟨fun t'' hc ht => h.enter t'' hc (ht.trans hplain), fun n hn hkind t'' hc ht hsame' => ?_⟩
  refine h.compute n ((hsame id .refl).symm.trans hn) hkind t'' hc (ht.trans hplain) fun y hy => ?_
  rw [hsame' y (by rwa [Within, descends_of_plain hplain]), hsame y hy]

/-- What a walk leaves that announced nothing. -/
structure Surveyed (s : Settings) (unit : NodeId) (inside : NodeId → Prop) (tour : Tour) (w w' : Workspace) : Prop where
  narrows : Narrows inside w.tree w'.tree
  changes : w'.changes = w.changes
  abortive : w'.trace.abortive = tour.aborted
  idle : ∀ y ∈ tour.nodes, Idle s unit w'.tree y
  spares : ∀ y ∈ tour.nodes, Spares s w.tree y
  within : ∀ y ∈ tour.nodes, ∀ z, w.tree.Within unit y z → inside z

/-- What settings spare on a tree they spared before more was learnt. -/
theorem Spares.of_narrows {inside : NodeId → Prop} (h : Narrows inside t t') (hspares : Spares s t' id) : Spares s t id :=
  fun hfolding => by
    have hnot := hspares hfolding
    cases hstatic : t.isStaticImport s.options.version id with
    | false => rfl
    | true => exact (h.isStaticImport hstatic).symm.trans hnot

/-! ## What a quiet walk leaves -/

theorem within_of_plain (h : t'.plain = t.plain) : t'.Within unit = t.Within unit := by
  rw [Within, Within, descends_of_plain h]

theorem isParent_of_plain (h : t'.plain = t.plain) {child : NodeId} (hparent : t.IsParent child parent) :
    t'.IsParent child parent :=
  (eq_of_plain (·.parent? child) (parent?_plain · child) h).trans hparent

namespace Surveyed

variable {inside inside₁ inside₂ : NodeId → Prop} {tour tour₁ tour₂ : Tour} {w₁ : Workspace}

theorem refl (inside : NodeId → Prop) (w : Workspace) : Surveyed s unit inside ⟨[], w.trace.abortive⟩ w w :=
  ⟨.refl _ _, rfl, rfl, nofun, nofun, nofun⟩

theorem of_start (h : Surveyed s unit inside tour w₁ w') (htree : w₁.tree = w.tree) (hchanges : w₁.changes = w.changes) :
    Surveyed s unit inside tour w w' :=
  ⟨htree ▸ h.narrows, h.changes.trans hchanges, h.abortive, h.idle, htree ▸ h.spares, htree ▸ h.within⟩

theorem mono (h : Surveyed s unit inside₁ tour w w') (himp : ∀ z, inside₁ z → inside₂ z) :
    Surveyed s unit inside₂ tour w w' :=
  ⟨h.narrows.mono himp, h.changes, h.abortive, h.idle, h.spares, fun y hy z hz => himp z (h.within y hy z hz)⟩

/-- Two walks one after the other, if the second learns nothing about what is inside the first. -/
theorem append (h₁ : Surveyed s unit inside tour₁ w w₁) (h₂ : Surveyed s unit inside tour₂ w₁ w')
    (hnew : Narrows inside₂ w₁.tree w'.tree)
    (hdisjoint : ∀ y ∈ tour₁.nodes, ∀ z, w.tree.Within unit y z → w.tree.kind z = .ok .importModule → ¬ inside₂ z) :
    Surveyed s unit inside ⟨tour₁.nodes ++ tour₂.nodes, tour₂.aborted⟩ w w' := by
  have hplain := h₁.narrows.plain
  refine ⟨h₁.narrows.trans h₂.narrows, h₂.changes.trans h₁.changes, h₂.abortive, fun y hy => ?_, fun y hy => ?_,
    fun y hy z hz => ?_⟩
  · rcases List.mem_append.1 hy with hy | hy
    · refine (h₁.idle y hy).frame hnew.plain fun z hz => hnew.get?_eq fun hkind => ?_
      rw [within_of_plain hplain] at hz
      exact hdisjoint y hy z hz ((eq_of_plain (·.kind z) (kind_plain · z) hplain).symm.trans hkind)
    · exact h₂.idle y hy
  · rcases List.mem_append.1 hy with hy | hy
    · exact h₁.spares y hy
    · exact (h₂.spares y hy).of_narrows h₁.narrows
  · rcases List.mem_append.1 hy with hy | hy
    · exact h₁.within y hy z hz
    · exact h₂.within y hy z (by rwa [within_of_plain hplain])

end Surveyed

theorem discard_eq_ok {α : Type} {x : ReplaceM α} {a : Unit} (h : discard x s w = .ok a w') : ∃ b, x s w = .ok b w' := by
  have hrun : EStateM.map (fun _ => ()) (x s) w = .ok a w' := h
  rw [EStateM.map] at hrun
  cases hx : x s w with
  | ok b w₁ =>
    rw [hx] at hrun
    cases hrun
    exact ⟨b, rfl⟩
  | error e w₁ =>
    rw [hx] at hrun
    cases hrun

/-- Walks of children, one after the other, leave all of them idle: what is within one child is not within the others. -/
theorem visitChildren_quiet
    (hvisit : ∀ {child id' : NodeId} {w w' : Workspace}, w.tree.Built → visit unit fuel child s w = .ok id' w' →
      w'.changes.size ≤ w.changes.size →
      Surveyed s unit (w.tree.Within unit child) (w.tree.tourUpTo unit fuel w.trace.abortive child) w w')
    (inSequence : Bool) : ∀ {children : List NodeId} {w w' : Workspace}, w.tree.Built →
    (∀ c ∈ children, w.tree.IsParent c parent) → children.Nodup →
    visitChildren (fun child => discard (visit unit fuel child)) parent inSequence children s w = .ok () w' →
    w'.changes.size ≤ w.changes.size →
    Surveyed s unit (fun z => ∃ c ∈ children, w.tree.Within unit c z)
      (Tour.through (w.tree.tourUpTo unit fuel) inSequence w.trace.abortive children) w w'
  | [], w, w', _, _, _, hrun, _ => by
    cases hrun
    exact .refl _ w
  | child :: rest, w, w', hbuilt, hchildren, hnodup, hrun, hsize => by
    rw [visitChildren, reads_bind_of_ok (show (get : ReplaceM Workspace) s w = .ok w w from rfl)] at hrun
    rw [Tour.through]
    by_cases hended : (inSequence && w.trace.abortive) = true
    · rw [if_pos hended] at hrun ⊢
      cases hrun
      exact .refl _ w
    · have hparent : w.tree.parent? child = some parent := hchildren child (by simp)
      rw [if_neg hended, reads_bind_of_ok tree_ok, if_pos hparent] at hrun
      rw [if_neg hended]
      obtain ⟨_, w₁, hfirst, hrest⟩ := reads_bind_eq_ok_iff.1 hrun
      obtain ⟨id', hfirst⟩ := discard_eq_ok hfirst
      obtain ⟨hbuilt₁, hgrows₁, -⟩ := tame_visit unit fuel child hfirst
      have hgrows₂ := (tame_visitChildren (fun child => (tame_visit unit fuel child).discarded) parent inSequence rest hrest).2
      have h₁ := hvisit hbuilt hfirst (by omega)
      have hplain := h₁.narrows.plain
      have htour : w₁.tree.tourUpTo unit fuel = w.tree.tourUpTo unit fuel := by
        funext aborted id
        exact tourUpTo_of_plain hplain unit fuel aborted id
      obtain ⟨hfresh, hnodup'⟩ := List.nodup_cons.1 hnodup
      have h₂ := visitChildren_quiet hvisit inSequence (hbuilt₁ hbuilt)
        (fun c hc => isParent_of_plain hplain (hchildren c (by simp [hc]))) hnodup' hrest (by omega)
      rw [within_of_plain hplain, htour, h₁.abortive] at h₂
      refine (h₁.mono fun z hz => ?_).append (h₂.mono ?_) h₂.narrows fun y hy z hz _ => ?_
      · exact ⟨child, by simp, hz⟩
      · rintro z ⟨c, hc, hz⟩
        exact ⟨c, by simp [hc], hz⟩
      · rintro ⟨c, hc, hcz⟩
        have hsame := hbuilt.consistent.within_unique hparent (hchildren c (by simp [hc])) (h₁.within y hy z hz) hcz
        exact hfresh (hsame ▸ hc)

/-- A node with everything below it: the node is entered first and computed last. -/
theorem Surveyed.node {below : Tour} {w₁ : Workspace}
    (hbelow : Surveyed s unit (fun z => ∃ c ∈ n.children, w.tree.Within unit c z) below w w₁) (hc : w.tree.Consistent) (hn : w.tree.get? id = some n)
    (hpass : n.kind = .functionBody → id = unit) (hspares : Spares s w.tree id)
    (henter : ∀ t, t.Consistent → t.plain = w.tree.plain → Spares s t id → Rests s t (enterNode id) id false)
    (hcompute : Repeats s unit id (computeNode id >>= applyComputed id) id (n.kind = .raiseException) w₁ w') :
    Surveyed s unit (w.tree.Within unit id) ⟨id :: below.nodes, below.aborted || n.kind = .raiseException⟩ w w' := by
  have hplain := hcompute.narrows.plain.trans hbelow.narrows.plain
  have descends {c : NodeId} (hmem : c ∈ n.children) : w.tree.Descends unit id c :=
    ⟨(hc.isParent_iff hn).2 hmem, fun hkind => hpass (Except.ok.inj ((kind_ok hn).symm.trans hkind))⟩
  have inside {z : NodeId} (hz : ∃ c ∈ n.children, w.tree.Within unit c z) : w.tree.Within unit id z := by
    obtain ⟨c, hmem, hz⟩ := hz
    exact .head (descends hmem) hz
  refine ⟨(hbelow.narrows.mono fun _ => inside).trans (hcompute.narrows.mono ?_), hcompute.changes.trans hbelow.changes, ?_,
    ?_, ?_, ?_⟩
  · rintro _ rfl
    exact .refl
  · rw [hcompute.abortive, hbelow.abortive]
  · rintro y (_ | ⟨_, hy⟩)
    · refine ⟨fun t htc ht => henter t htc (ht.trans hplain), fun m hm _ t htc ht hsame => ?_⟩
      obtain ⟨m', hm', hmplain⟩ := get?_of_plain hplain hn
      obtain rfl : m = m' := Option.some.inj (hm.symm.trans hm')
      rw [show m.kind = n.kind from (congrArg Node.kind hmplain :)]
      exact hcompute.rests t htc ht hsame
    · -- nothing below a node is the node itself
      refine (hbelow.idle y hy).frame hcompute.narrows.plain fun z hz => hcompute.narrows.get?_eq fun _ => ?_
      rintro rfl
      rw [within_of_plain hbelow.narrows.plain] at hz
      obtain ⟨c, hmem, hcz⟩ := hbelow.within y hy z hz
      exact hc.acyclic c (.head' ((hc.isParent_iff hn).2 hmem) (below_of_within hcz))
  · rintro y (_ | ⟨_, hy⟩)
    · exact hspares
    · exact hbelow.spares y hy
  · rintro y (_ | ⟨_, hy⟩) z hz
    · exact hz
    · exact inside (hbelow.within y hy z hz)

section Entered

variable (hvisit : ∀ {child id' : NodeId} {w w' : Workspace}, w.tree.Built → visit unit fuel child s w = .ok id' w' →
  w'.changes.size ≤ w.changes.size →
  Surveyed s unit (w.tree.Within unit child) (w.tree.tourUpTo unit fuel w.trace.abortive child) w w')
include hvisit

/-- The children of one node. -/
theorem visitBelow_quiet (hbuilt : w.tree.Built) (hn : w.tree.get? id = some n)
    (hrun : visitChildren (fun child => discard (visit unit fuel child)) id (n.kind = .statementsSequence) n.children s w =
      .ok () w') (hsize : w'.changes.size ≤ w.changes.size) :
    Surveyed s unit (fun z => ∃ c ∈ n.children, w.tree.Within unit c z)
      (Tour.through (w.tree.tourUpTo unit fuel) (n.kind = .statementsSequence) w.trace.abortive n.children) w w' :=
  visitChildren_quiet hvisit _ hbuilt (fun _ => (hbuilt.consistent.isParent_iff hn).2) (hbuilt.consistent.nodup_children hn)
    hrun hsize

/-- A unit in its own walk is not computed. -/
theorem visitUnit_quiet (hbuilt : w.tree.Built) (hrun : visitEntered unit fuel unit s w = .ok id' w')
    (hsize : w'.changes.size ≤ w.changes.size) :
    Surveyed s unit (w.tree.Within unit unit) (w.tree.tourUpTo unit (fuel + 1) w.trace.abortive unit) w w' := by
  obtain ⟨n, hnode, hrun⟩ := ask_bind_eq_ok_iff.1 hrun
  have hn := node_eq_ok_iff.1 hnode
  rw [if_neg fun h => h.2 rfl] at hrun
  obtain ⟨_, w₁, hchildren, hrun⟩ := reads_bind_eq_ok_iff.1 hrun
  rw [if_pos rfl] at hrun
  cases hrun
  rw [tourUpTo_unit fuel w.trace.abortive hn]
  refine (visitBelow_quiet hvisit hbuilt hn hchildren hsize).mono ?_
  rintro z ⟨c, hmem, hz⟩
  exact .head ⟨(hbuilt.consistent.isParent_iff hn).2 hmem, fun _ => rfl⟩ hz

/-- Any other node that the visitors leave alone. -/
theorem visitEntered_quiet (hbuilt : w.tree.Built) (hunit : id ≠ unit) (hspares : Spares s w.tree id)
    (henter : ∀ t, t.Consistent → t.plain = w.tree.plain → Spares s t id → Rests s t (enterNode id) id false)
    (hrun : visitEntered unit fuel id s w = .ok id' w') (hsize : w'.changes.size ≤ w.changes.size) :
    Surveyed s unit (w.tree.Within unit id) (w.tree.tourUpTo unit (fuel + 1) w.trace.abortive id) w w' := by
  obtain ⟨n, hnode, hrun⟩ := ask_bind_eq_ok_iff.1 hrun
  have hn := node_eq_ok_iff.1 hnode
  by_cases hkind : n.kind = .functionBody
  · rw [if_pos ⟨hkind, hunit⟩] at hrun
    cases hrun
    rw [tourUpTo_function fuel _ hn hunit hkind]
    refine ⟨.refl _ _, rfl, rfl, ?_, ?_, ?_⟩
    · rintro y (_ | ⟨_, ⟨⟩⟩)
      refine ⟨henter, fun m hm hnot => absurd ?_ hnot⟩
      rw [Option.some.inj (hm.symm.trans hn), hkind]
    · rintro y (_ | ⟨_, ⟨⟩⟩)
      exact hspares
    · rintro y (_ | ⟨_, ⟨⟩⟩) z hz
      exact hz
  · rw [if_neg fun h => hkind h.1] at hrun
    obtain ⟨_, w₁, hchildren, hrun⟩ := reads_bind_eq_ok_iff.1 hrun
    rw [if_neg hunit] at hrun
    obtain ⟨hbuilt₁, hgrows₁, -⟩ :=
      tame_visitChildren (fun child => (tame_visit unit fuel child).discarded) _ _ _ hchildren
    have hgrows₂ := (Tame.bind (tame_computeNode id) tame_applyComputed hrun).2
    have hbelow := visitBelow_quiet hvisit hbuilt hn hchildren (by omega)
    obtain ⟨n₁, hn₁, hplain⟩ := get?_of_plain hbelow.narrows.plain hn
    obtain ⟨-, hcompute⟩ := compute_quiet unit (hbuilt₁ hbuilt).consistent hn₁ hrun (by omega)
    rw [show n₁.kind = n.kind from (congrArg Node.kind hplain :)] at hcompute
    rw [tourUpTo_node fuel _ hn hunit hkind]
    exact hbelow.node hbuilt.consistent hn (fun h => absurd h hkind) hspares henter hcompute

end Entered

/-- **A walk that announces nothing leaves all nodes on its tour idle.** -/
theorem visit_quiet (unit : NodeId) : ∀ {fuel : Nat} {id id' : NodeId} {w w' : Workspace}, w.tree.Built →
    visit unit fuel id s w = .ok id' w' → w'.changes.size ≤ w.changes.size →
    Surveyed s unit (w.tree.Within unit id) (w.tree.tourUpTo unit fuel w.trace.abortive id) w w'
  | 0, _, _, _, _, _, hrun, _ => nomatch hrun
  | fuel + 1, id, id', w, w', hbuilt, hrun, hsize => by
    rw [visit_succ] at hrun
    by_cases hunit : id = unit
    · rw [if_pos hunit] at hrun
      rw [hunit] at hrun ⊢
      exact visitUnit_quiet (visit_quiet unit) hbuilt hrun hsize
    · rw [if_neg hunit] at hrun
      obtain ⟨id₁, w₁, henter, hrun⟩ := reads_bind_eq_ok_iff.1 hrun
      have hgrows₁ := (tame_enterNode id henter).2
      have hgrows₂ := (tame_visitEntered unit fuel id₁ hrun).2
      -- the visitors have announced nothing, so that the node is as it was
      obtain ⟨hid, hspares, hrests⟩ := enterNode_quiet hbuilt.consistent henter (by omega)
      obtain ⟨-, htree₁, hchanges₁, habort₁⟩ := (hrests w.tree hbuilt.consistent rfl hspares).eq_of_ok henter
      rw [hid] at hrun
      rw [← htree₁] at hbuilt hspares hrests ⊢
      rw [← habort₁.trans (Bool.or_false _)]
      exact (visitEntered_quiet (visit_quiet unit) hbuilt hunit hspares hrests hrun (by omega)).of_start htree₁ hchanges₁

/-! ## Walks of idle nodes -/

/-- On a tree, a computation that starts before or after control has ended gives a value and changes nothing but the
trace. -/
def Traverses {α : Type} (s : Settings) (t : Tree) (x : ReplaceM α) (a : α) (before after : Bool) : Prop :=
  ∀ trace changes, trace.abortive = before → ∃ trace', trace'.abortive = after ∧
    x s ⟨t, trace, changes⟩ = .ok a ⟨t, trace', changes⟩

namespace Traverses

variable {α β : Type} {x : ReplaceM α} {f : α → ReplaceM β} {a : α} {b : β} {before between after : Bool}

theorem ret : Traverses s t (pure a) a before before := fun trace _ h => ⟨trace, h, rfl⟩

theorem of_rests {aborts : Bool} (h : Rests s t x a aborts) : Traverses s t x a before (before || aborts) :=
  fun trace changes hbefore => by
    obtain ⟨trace', habort, hrun⟩ := h trace changes
    exact ⟨trace', by rw [habort, hbefore], hrun⟩

theorem bind (hx : Traverses s t x a before between) (hf : Traverses s t (f a) b between after) :
    Traverses s t (x >>= f) b before after := fun trace changes hbefore => by
  obtain ⟨trace₁, hbetween, hrun₁⟩ := hx trace changes hbefore
  obtain ⟨trace₂, hafter, hrun₂⟩ := hf trace₁ changes hbetween
  exact ⟨trace₂, hafter, (reads_bind_of_ok hrun₁).trans hrun₂⟩

theorem after_rests (hx : Rests s t x a false) (hf : Traverses s t (f a) b before after) : Traverses s t (x >>= f) b before after := by
  refine .bind ?_ hf
  have hpasses : Traverses s t x a before (before || false) := of_rests hx
  simpa using hpasses

theorem discarded (hx : Traverses s t x a before after) : Traverses s t (discard x) () before after :=
  fun trace changes hbefore => by
    obtain ⟨trace', hafter, hrun⟩ := hx trace changes hbefore
    refine ⟨trace', hafter, ?_⟩
    show EStateM.map (fun _ => ()) (x s) _ = _
    rw [EStateM.map, hrun]

end Traverses

theorem visitChildren_rests
    (hvisit : ∀ {child : NodeId} {aborted : Bool}, t.IsParent child parent →
      (∀ y ∈ (t.tourUpTo unit fuel aborted child).nodes, Idle s unit t y ∧ Spares s t y) →
      Traverses s t (visit unit fuel child) child aborted (t.tourUpTo unit fuel aborted child).aborted)
    (inSequence : Bool) : ∀ {children : List NodeId} {aborted : Bool}, (∀ c ∈ children, t.IsParent c parent) →
    (∀ y ∈ (Tour.through (t.tourUpTo unit fuel) inSequence aborted children).nodes, Idle s unit t y ∧ Spares s t y) →
    Traverses s t (visitChildren (fun child => discard (visit unit fuel child)) parent inSequence children) () aborted
      (Tour.through (t.tourUpTo unit fuel) inSequence aborted children).aborted
  | [], _, _, _ => .ret
  | child :: rest, aborted, hchildren, hall => by
    rw [visitChildren]
    rw [Tour.through] at hall ⊢
    intro trace changes hbefore
    rw [reads_bind_of_ok (show (get : ReplaceM Workspace) s ⟨t, trace, changes⟩ = .ok ⟨t, trace, changes⟩ _ from rfl)]
    rw [hbefore]
    by_cases hended : (inSequence && aborted) = true
    · rw [if_pos hended, if_pos hended]
      exact ⟨trace, hbefore, rfl⟩
    · rw [if_neg hended] at hall
      rw [if_neg hended, if_neg hended]
      have hparent : t.parent? child = some parent := hchildren child (by simp)
      refine Traverses.after_rests .look ?_ trace changes hbefore
      rw [if_pos hparent]
      refine .bind (hvisit hparent fun y hy => hall y (List.mem_append_left _ hy)).discarded ?_
      exact visitChildren_rests hvisit inSequence (fun c hc => hchildren c (by simp [hc])) fun y hy =>
        hall y (List.mem_append_right _ hy)

/-- **A walk whose nodes are idle, and none of whose imports can be made static, does nothing.** -/
theorem visit_rests (hc : t.Consistent) : ∀ {fuel : Nat} {id : NodeId} {n : Node} {aborted : Bool}, t.get? id = some n →
    t.nodes.size ≤ t.depth id + fuel →
    (∀ y ∈ (t.tourUpTo unit fuel aborted id).nodes, Idle s unit t y ∧ Spares s t y) →
    Traverses s t (visit unit fuel id) id aborted (t.tourUpTo unit fuel aborted id).aborted
  | 0, id, n, aborted, hn, hdepth, _ => absurd (hc.depth_lt_size hn) (by omega)
  | fuel + 1, id, n, aborted, hn, hdepth, hall => by
    have hvisit {child : NodeId} {aborted : Bool} (hchild : t.IsParent child id)
        (hall : ∀ y ∈ (t.tourUpTo unit fuel aborted child).nodes, Idle s unit t y ∧ Spares s t y) :
        Traverses s t (visit unit fuel child) child aborted (t.tourUpTo unit fuel aborted child).aborted := by
      obtain ⟨m, hm, -⟩ := parent?_eq_some_iff.1 hchild
      have hlower := hc.depth_of_parent hchild
      exact visit_rests hc hm (by omega) hall
    have hchildren : ∀ c ∈ n.children, t.IsParent c id := fun c => (hc.isParent_iff hn).2
    rw [visit_succ]
    by_cases hunit : id = unit
    · have htour := tourUpTo_unit fuel aborted (hunit ▸ hn)
      rw [hunit, htour] at hall ⊢
      rw [if_pos rfl]
      rw [hunit] at hn hvisit hchildren
      refine .after_rests (.ask (node_of_get? hn)) ?_
      rw [if_neg (by simp)]
      refine .bind (visitChildren_rests hvisit _ hchildren hall) ?_
      rw [if_pos rfl]
      exact .ret
    · rw [if_neg hunit]
      by_cases hkind : n.kind = .functionBody
      · rw [tourUpTo_function fuel aborted hn hunit hkind] at hall ⊢
        obtain ⟨hidle, hspares⟩ := hall id (by simp)
        refine .after_rests (hidle.enter t hc rfl hspares) (.after_rests (.ask (node_of_get? hn)) ?_)
        rw [if_pos ⟨hkind, hunit⟩]
        exact .ret
      · rw [tourUpTo_node fuel aborted hn hunit hkind] at hall ⊢
        obtain ⟨hidle, hspares⟩ := hall id (by simp)
        refine .after_rests (hidle.enter t hc rfl hspares) (.after_rests (.ask (node_of_get? hn)) ?_)
        rw [if_neg fun h => hkind h.1]
        refine .bind (visitChildren_rests hvisit _ hchildren fun y hy => hall y (List.mem_cons_of_mem _ hy)) ?_
        rw [if_neg hunit]
        exact .of_rests (hidle.compute n hn hkind t hc rfl fun _ _ => rfl)

end ReplaceM

end Specializer
