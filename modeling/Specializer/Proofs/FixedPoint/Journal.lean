import Specializer.Proofs.FixedPoint.Tour

/-!
# Walks that keep a journal

A journal tells what a walk does, in order: every look of a visitor and every computation, with the trees before and after
it, the node that is left in the place of each child once the walk is done with it, and the statements that the walk leaves
out because control has ended before them. `JournalM.visit` walks as `ReplaceM.visit` does and writes the journal. Nothing
else depends on the journal, so every run of the one is a run of the other (`JournalM.Runs`).

`Walks` tells how a walk that succeeds comes about, from the parts it consists of; what is proved about walks and their
journals is proved by induction on it. Every successful walk is one of these (`visit_walks`).
-/

namespace Specializer

/-- A step of a walk: a look at a node, or its computation. -/
structure Step where
  /-- The visitor that looks at the node, `none` if the node is computed. -/
  visitor? : Option Visitor
  node : NodeId
  before : Tree
  /-- The node in the place of the first one, afterwards. -/
  result : NodeId
  after : Tree

/-- What is told about a walk. -/
inductive Event where
  | step (step : Step)
  /-- The walk is done with a child, and this node is in its place. -/
  | done (node : NodeId)
  /-- Control has ended before this statement. -/
  | leftOut (statement : NodeId)

namespace Event

def step? : Event → Option Step
  | .step s => some s
  | _ => none

def done? : Event → Option NodeId
  | .done id => some id
  | _ => none

def leftOut? : Event → Option NodeId
  | .leftOut id => some id
  | _ => none

variable {e : Event} {s : Step} {id : NodeId}

@[simp] theorem step?_eq_some : e.step? = some s ↔ e = .step s := by cases e <;> simp [step?]

@[simp] theorem done?_eq_some : e.done? = some id ↔ e = .done id := by cases e <;> simp [done?]

@[simp] theorem leftOut?_eq_some : e.leftOut? = some id ↔ e = .leftOut id := by cases e <;> simp [leftOut?]

end Event

/-- Replacements that keep a journal. -/
abbrev JournalM := StateT (List Event) ReplaceM

namespace JournalM

open ReplaceM

/-- Adds to the journal. -/
def note (events : List Event) : JournalM Unit := modify (· ++ events)

/-- Does a step at a node. -/
def step (visitor? : Option Visitor) (node : NodeId) (action : ReplaceM NodeId) : JournalM NodeId := do
  let before ← ReplaceM.tree
  let result ← action
  let after ← ReplaceM.tree
  note [.step { visitor?, node, before, result, after }]
  return result

/-- Lets the visitors look at a node one after the other. -/
def enterNode (id : NodeId) : JournalM NodeId := do
  let settings ← (read : ReplaceM Settings)
  settings.options.visitors.foldlM (fun current visitor => step (some visitor) current (visitor.enter current)) id

/-- Visits children with `visit`, as `ReplaceM.visitChildren` does. -/
def visitChildren (visit : NodeId → JournalM Unit) (parent : NodeId) (inSequence : Bool) : List NodeId → JournalM Unit
  | [] => return ()
  | child :: rest => do
    let w ← (get : ReplaceM Workspace)
    if inSequence && w.trace.abortive then
      note ((child :: rest).map .leftOut)
    else
      let t ← ReplaceM.tree
      if t.parent? child = some parent then visit child
      visitChildren visit parent inSequence rest

/-- What a walk does with a node that is in its place, if it visits the children with `visit`. -/
def visitEntered (visit : NodeId → JournalM NodeId) (unit current : NodeId) : JournalM NodeId := do
  let n ← ask (·.node current)
  if n.kind = .functionBody ∧ current ≠ unit then return current
  let visitChild (child : NodeId) : JournalM Unit := do note [.done (← visit child)]
  visitChildren visitChild current (n.kind = .statementsSequence) n.children
  if current = unit then return current
  step none current (computeNode current >>= applyComputed current)

/-- Visits a node of a unit and everything below it, as `ReplaceM.visit` does. -/
def visit (unit : NodeId) : Nat → NodeId → JournalM NodeId
  | 0, _ => (throw (.internal "the tree is nested too deeply") : ReplaceM NodeId)
  | fuel + 1, id => do
    let current ← if id = unit then pure id else enterNode id
    visitEntered (visit unit fuel) unit current

/-! ## Runs -/

section Runs

variable {α β : Type} {s : Settings} {w w₁ w' : Workspace} {a : α} {b : β} {more more₁ more₂ : List Event}

/-- What a computation adds to any journal, and what it does besides. -/
def Runs (y : JournalM α) (s : Settings) (w : Workspace) (a : α) (more : List Event) (w' : Workspace) : Prop :=
  ∀ events, y events s w = .ok (a, events ++ more) w'

theorem Runs.lift {x : ReplaceM α} (h : x s w = .ok a w') : Runs (liftM x) s w a [] w' := by
  intro events
  rw [List.append_nil]
  exact reads_bind_of_ok h

theorem Runs.ret : Runs (pure a) s w a [] w := .lift pure_ok

theorem Runs.note (events : List Event) : Runs (note events) s w () events w := fun _ => rfl

theorem Runs.bind {y : JournalM α} {g : α → JournalM β} (hy : Runs y s w a more₁ w₁) (hg : Runs (g a) s w₁ b more₂ w') :
    Runs (y >>= g) s w b (more₁ ++ more₂) w' := by
  intro events
  rw [← List.append_assoc]
  exact (reads_bind_of_ok (hy events)).trans (hg _)

/-- What is done before anything is told. -/
theorem Runs.after {x : ReplaceM α} {g : α → JournalM β} (hx : x s w = .ok a w₁) (hg : Runs (g a) s w₁ b more w') :
    Runs (liftM x >>= g) s w b more w' :=
  Runs.bind (.lift hx) hg

theorem Runs.step {visitor? : Option Visitor} {id id' : NodeId} {action : ReplaceM NodeId}
    (h : action s w = .ok id' w') :
    Runs (step visitor? id action) s w id' [.step ⟨visitor?, id, w.tree, id', w'.tree⟩] w' :=
  .after tree_ok (.after h (.after tree_ok (Runs.bind (.note _) .ret)))

end Runs

end JournalM

/-! ## Walks -/

/-- The visitors look at a node one after the other. -/
inductive Enters (s : Settings) : List Visitor → NodeId → Workspace → List Event → NodeId → Workspace → Prop
  | nil {id : NodeId} {w : Workspace} : Enters s [] id w [] id w
  | cons {visitor : Visitor} {visitors : List Visitor} {id mid id' : NodeId} {w w₁ w' : Workspace} {more : List Event}
      (look : visitor.enter id s w = .ok mid w₁) (rest : Enters s visitors mid w₁ more id' w') :
      Enters s (visitor :: visitors) id w (.step ⟨some visitor, id, w.tree, mid, w₁.tree⟩ :: more) id' w'

/-- The parts of a walk. -/
inductive Task where
  /-- A node with everything below it. -/
  | node (id : NodeId)
  /-- The same, after the visitors have looked at the node. -/
  | entered (id : NodeId)
  /-- Some children of a node, one after the other. -/
  | children (parent : NodeId) (inSequence : Bool) (ids : List NodeId)

/-- The node that a part of a walk is about. -/
def Task.place : Task → NodeId
  | .node id | .entered id => id
  | .children parent _ _ => parent

/-- A part of the walk of a unit: what it writes into the journal, and which node is in the place of the first one
afterwards. -/
inductive Walks (s : Settings) (unit : NodeId) : Task → Workspace → List Event → NodeId → Workspace → Prop
  | unit {w w' : Workspace} {more : List Event} {id' : NodeId} (below : Walks s unit (.entered unit) w more id' w') :
      Walks s unit (.node unit) w more id' w'
  | enter {w w₁ w' : Workspace} {looks more : List Event} {id mid id' : NodeId} (hid : id ≠ unit)
      (enters : Enters s s.options.visitors id w looks mid w₁) (below : Walks s unit (.entered mid) w₁ more id' w') :
      Walks s unit (.node id) w (looks ++ more) id' w'
  | function {w : Workspace} {id : NodeId} {n : Node} (hn : w.tree.get? id = some n) (hkind : n.kind = .functionBody)
      (hid : id ≠ unit) : Walks s unit (.entered id) w [] id w
  | inUnit {w w' : Workspace} {more : List Event} {n : Node} (hn : w.tree.get? unit = some n)
      (below : Walks s unit (.children unit (n.kind = .statementsSequence) n.children) w more unit w') :
      Walks s unit (.entered unit) w more unit w'
  | compute {w w₁ w' : Workspace} {more : List Event} {id id' : NodeId} {n : Node} (hn : w.tree.get? id = some n)
      (hkind : n.kind ≠ .functionBody) (hid : id ≠ unit)
      (below : Walks s unit (.children id (n.kind = .statementsSequence) n.children) w more id w₁)
      (computes : (ReplaceM.computeNode id >>= ReplaceM.applyComputed id) s w₁ = .ok id' w') :
      Walks s unit (.entered id) w (more ++ [.step ⟨none, id, w₁.tree, id', w'.tree⟩]) id' w'
  | nil {w : Workspace} {parent : NodeId} {inSequence : Bool} :
      Walks s unit (.children parent inSequence []) w [] parent w
  | ended {w : Workspace} {parent child : NodeId} {rest : List NodeId} (habort : w.trace.abortive = true) :
      Walks s unit (.children parent true (child :: rest)) w ((child :: rest).map .leftOut) parent w
  | child {w w₁ w' : Workspace} {parent child id' : NodeId} {inSequence : Bool} {rest : List NodeId} {more₁ more₂ : List Event}
      (hparent : w.tree.IsParent child parent) (first : Walks s unit (.node child) w more₁ id' w₁)
      (others : Walks s unit (.children parent inSequence rest) w₁ more₂ parent w') :
      Walks s unit (.children parent inSequence (child :: rest)) w (more₁ ++ [.done id'] ++ more₂) parent w'
  | moved {w w' : Workspace} {parent child : NodeId} {inSequence : Bool} {rest : List NodeId} {more : List Event}
      (hparent : ¬ w.tree.IsParent child parent)
      (others : Walks s unit (.children parent inSequence rest) w more parent w') :
      Walks s unit (.children parent inSequence (child :: rest)) w more parent w'

/-- The walk of a unit leaves the unit in its place. -/
theorem Walks.of_unit {s : Settings} {unit id' : NodeId} {w w' : Workspace} {events : List Event}
    (h : Walks s unit (.node unit) w events id' w') : id' = unit ∧ ∃ n, w.tree.get? unit = some n := by
  cases h with
  | enter hid => exact absurd rfl hid
  | unit below =>
    cases below with
    | function _ _ hid => exact absurd rfl hid
    | inUnit hn _ => exact ⟨rfl, _, hn⟩
    | compute _ _ hid => exact absurd rfl hid

namespace ReplaceM

open Specializer.Tree
open JournalM (Runs)

variable {s : Settings} {unit id id' : NodeId} {fuel : Nat} {w w' : Workspace}

theorem foldlM_enters : ∀ {visitors : List Visitor} {id : NodeId} {w : Workspace},
    visitors.foldlM (fun current visitor => visitor.enter current) id s w = .ok id' w' →
    ∃ more, Enters s visitors id w more id' w' ∧ Runs (visitors.foldlM (fun current visitor =>
      JournalM.step (some visitor) current (visitor.enter current)) id) s w id' more w'
  | [], id, w, hrun => by
    cases hrun
    exact ⟨[], .nil, .ret⟩
  | visitor :: visitors, id, w, hrun => by
    rw [List.foldlM_cons] at hrun
    obtain ⟨mid, w₁, hlook, hrun⟩ := reads_bind_eq_ok_iff.1 hrun
    obtain ⟨more, henters, hruns⟩ := foldlM_enters hrun
    refine ⟨_, .cons hlook henters, ?_⟩
    rw [List.foldlM_cons]
    exact Runs.bind (.step hlook) hruns

theorem enterNode_enters (hrun : enterNode id s w = .ok id' w') :
    ∃ more, Enters s s.options.visitors id w more id' w' ∧ Runs (JournalM.enterNode id) s w id' more w' := by
  rw [enterNode, reads_bind_of_ok settings_ok] at hrun
  obtain ⟨more, henters, hruns⟩ := foldlM_enters hrun
  exact ⟨more, henters, .after settings_ok hruns⟩

/-- The walks of some children, if `visit` walks as `visit'` does. -/
theorem visitChildren_walks {visit : NodeId → ReplaceM NodeId} {visit' : NodeId → JournalM NodeId}
    (hvisit : ∀ {child id' : NodeId} {w w' : Workspace}, visit child s w = .ok id' w' →
      ∃ more, Walks s unit (.node child) w more id' w' ∧ Runs (visit' child) s w id' more w')
    (parent : NodeId) (inSequence : Bool) : ∀ {children : List NodeId} {w : Workspace},
    visitChildren (fun child => discard (visit child)) parent inSequence children s w = .ok () w' →
    ∃ more, Walks s unit (.children parent inSequence children) w more parent w' ∧
      Runs (JournalM.visitChildren (fun child => do JournalM.note [.done (← visit' child)]) parent inSequence children)
        s w () more w'
  | [], w, hrun => by
    cases hrun
    exact ⟨[], .nil, .ret⟩
  | child :: rest, w, hrun => by
    have hget : (get : ReplaceM Workspace) s w = .ok w w := rfl
    rw [visitChildren, reads_bind_of_ok hget] at hrun
    by_cases hended : (inSequence && w.trace.abortive) = true
    · rw [if_pos hended] at hrun
      cases hrun
      obtain ⟨rfl, habort⟩ := Bool.and_eq_true_iff.1 hended
      refine ⟨_, .ended habort, .after hget ?_⟩
      rw [if_pos hended]
      exact .note _
    · rw [if_neg hended, reads_bind_of_ok tree_ok] at hrun
      by_cases hparent : w.tree.parent? child = some parent
      · rw [if_pos hparent] at hrun
        obtain ⟨_, w₁, hfirst, hrest⟩ := reads_bind_eq_ok_iff.1 hrun
        obtain ⟨id', hfirst⟩ := discard_eq_ok hfirst
        obtain ⟨more₁, hwalks₁, hruns₁⟩ := hvisit hfirst
        obtain ⟨more₂, hwalks₂, hruns₂⟩ := visitChildren_walks hvisit parent inSequence hrest
        refine ⟨_, .child hparent hwalks₁ hwalks₂, .after hget ?_⟩
        rw [if_neg hended]
        refine .after tree_ok ?_
        rw [if_pos hparent]
        exact Runs.bind (Runs.bind hruns₁ (.note _)) hruns₂
      · rw [if_neg hparent] at hrun
        obtain ⟨more, hwalks, hruns⟩ := visitChildren_walks hvisit parent inSequence hrun
        refine ⟨more, .moved hparent hwalks, .after hget ?_⟩
        rw [if_neg hended]
        refine .after tree_ok ?_
        rw [if_neg hparent]
        exact hruns

theorem visitEntered_walks
    (hvisit : ∀ {child id' : NodeId} {w w' : Workspace}, visit unit fuel child s w = .ok id' w' →
      ∃ more, Walks s unit (.node child) w more id' w' ∧ Runs (JournalM.visit unit fuel child) s w id' more w')
    (hrun : visitEntered unit fuel id s w = .ok id' w') : ∃ more, Walks s unit (.entered id) w more id' w' ∧
      Runs (JournalM.visitEntered (JournalM.visit unit fuel) unit id) s w id' more w' := by
  obtain ⟨n, hnode, hrun⟩ := ask_bind_eq_ok_iff.1 hrun
  have hn := node_eq_ok_iff.1 hnode
  by_cases hfunction : n.kind = .functionBody ∧ id ≠ unit
  · rw [if_pos hfunction] at hrun
    cases hrun
    refine ⟨[], .function hn hfunction.1 hfunction.2, .after (ask_ok hnode) ?_⟩
    rw [if_pos hfunction]
    exact .ret
  rw [if_neg hfunction] at hrun
  obtain ⟨_, w₂, hchildren, hrun⟩ := reads_bind_eq_ok_iff.1 hrun
  obtain ⟨more, hwalks, hruns⟩ := visitChildren_walks hvisit id _ hchildren
  by_cases hunit : id = unit
  · subst hunit
    rw [if_pos rfl] at hrun
    cases hrun
    refine ⟨more, .inUnit hn hwalks, .after (ask_ok hnode) ?_⟩
    rw [if_neg hfunction, ← List.append_nil more]
    refine Runs.bind hruns ?_
    rw [if_pos rfl]
    exact .ret
  · rw [if_neg hunit] at hrun
    refine ⟨_, .compute hn (fun hkind => hfunction ⟨hkind, hunit⟩) hunit hwalks hrun, .after (ask_ok hnode) ?_⟩
    rw [if_neg hfunction]
    refine Runs.bind hruns ?_
    rw [if_neg hunit]
    exact .step hrun

/-- **Every successful walk consists of its parts, and can be told in a journal.** -/
theorem visit_walks : ∀ {fuel : Nat} {id id' : NodeId} {w w' : Workspace}, visit unit fuel id s w = .ok id' w' →
    ∃ more, Walks s unit (.node id) w more id' w' ∧ Runs (JournalM.visit unit fuel id) s w id' more w'
  | 0, _, _, _, _, hrun => nomatch hrun
  | fuel + 1, id, id', w, w', hrun => by
    rw [visit_succ] at hrun
    rw [JournalM.visit]
    by_cases hunit : id = unit
    · rw [if_pos hunit, hunit] at hrun
      obtain ⟨more, hwalks, hruns⟩ := visitEntered_walks visit_walks hrun
      rw [if_pos hunit, hunit]
      exact ⟨more, .unit hwalks, Runs.bind .ret hruns⟩
    · rw [if_neg hunit] at hrun
      obtain ⟨mid, w₁, henter, hrun⟩ := reads_bind_eq_ok_iff.1 hrun
      obtain ⟨looks, henters, hlooks⟩ := enterNode_enters henter
      obtain ⟨more, hwalks, hruns⟩ := visitEntered_walks visit_walks hrun
      rw [if_neg hunit]
      exact ⟨looks ++ more, .enter hunit henters hwalks, Runs.bind hlooks hruns⟩

end ReplaceM

end Specializer
