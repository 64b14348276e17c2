import Specializer.Proofs.Tree.Inversion
import Specializer.Proofs.Tree.Operation
import Specializer.FixedPoint

/-!
# What every replacement keeps

Whatever tree a computation starts from, and whatever it finds there: if it succeeds, the tree it leaves is built by
operations again, its variables are as they were but for their counts, and the change log has only grown. `Tame` says so
of one computation; the computations of this module are tame because their parts are.
-/

namespace Specializer

namespace ReplaceM

/-! ## Single steps -/

section Steps

variable {α : Type} {s : Settings} {w : Workspace} {a : α} {t' : Tree}

theorem onTree_ok {action : TreeM α} (h : action w.tree = .ok a t') :
    onTree action s w = .ok a { w with tree := t' } := by
  simp only [onTree, onCompile, CompileM.onTree, h]

/-- A tree operation changes nothing but the tree. -/
theorem onTree_eq_ok_iff {action : TreeM α} {w' : Workspace} :
    onTree action s w = .ok a w' ↔ ∃ t', action w.tree = .ok a t' ∧ w' = { w with tree := t' } := by
  cases haction : action w.tree with
  | ok b t =>
    rw [onTree_ok haction]
    constructor
    · rintro ⟨⟩
      exact ⟨t, rfl, rfl⟩
    · rintro ⟨t', ⟨⟩, rfl⟩
      rfl
  | error e t => simp [onTree, onCompile, CompileM.onTree, haction]

theorem onTree_eq_ok {action : TreeM α} {w' : Workspace} (h : onTree action s w = .ok a w') :
    action w.tree = .ok a w'.tree := by
  obtain ⟨t', haction, rfl⟩ := onTree_eq_ok_iff.1 h
  exact haction

theorem ask_ok {question : Tree → Except TreeError α} (h : question w.tree = .ok a) :
    ask question s w = .ok a w :=
  onTree_ok (Tree.run_query_ok h)

theorem ask_eq_ok_iff {question : Tree → Except TreeError α} {w' : Workspace} :
    ask question s w = .ok a w' ↔ question w.tree = .ok a ∧ w = w' := by
  cases h : question w.tree with
  | ok b =>
    rw [ask_ok h]
    simp
  | error e => simp [ask, onTree, onCompile, CompileM.onTree, Tree.run_query_error h]

theorem ask_bind_eq_ok_iff {β : Type} {question : Tree → Except TreeError α} {f : α → ReplaceM β} {b : β} {w' : Workspace} :
    (ask question >>= f) s w = .ok b w' ↔ ∃ a, question w.tree = .ok a ∧ f a s w = .ok b w' := by
  rw [reads_bind_eq_ok_iff]
  constructor
  · rintro ⟨a, w₁, hask, h⟩
    obtain ⟨ha, rfl⟩ := ask_eq_ok_iff.1 hask
    exact ⟨a, ha, h⟩
  · rintro ⟨a, ha, h⟩
    exact ⟨a, w, ask_ok ha, h⟩

theorem source_ok {t : Tree} {id : NodeId} {n : Node} (h : t.get? id = some n) : t.source id = .ok n.source := by
  rw [Tree.source, Tree.node_of_get? h]
  rfl

theorem kind_ok {t : Tree} {id : NodeId} {n : Node} (h : t.get? id = some n) : t.kind id = .ok n.kind := by
  rw [Tree.kind, Tree.node_of_get? h]
  rfl

theorem pure_ok : (pure a : ReplaceM α) s w = .ok a w := rfl

theorem tree_ok : tree s w = .ok w.tree w := rfl

theorem settings_ok : (read : ReplaceM Settings) s w = .ok s w := rfl

theorem version_ok : version s w = .ok s.options.version w := rfl

theorem signal_ok (tags : ChangeTags) (source : SourceRef) (message : String) :
    signal tags source message s w = .ok () { w with changes := w.changes.add tags source message } := rfl

theorem recordExit_ok (kind : ExceptionKind) (source : SourceRef) :
    recordExit kind source s w = .ok () { w with trace := w.trace.recordExit kind source } := rfl

theorem abort_ok : abort s w = .ok () { w with trace := w.trace.abort } := rfl

end Steps

end ReplaceM

theorem ChangeLog.size_add (log : ChangeLog) (tags : ChangeTags) (source : SourceRef) (message : String) :
    (log.add tags source message).size = log.size + 1 := by
  simp [ChangeLog.add, ChangeLog.size]

open Specializer.Tree

/-! ## Variables -/

/-- The variables of a tree without their counts. -/
def Tree.uncounted (t : Tree) : Array Variable := t.bindings.map fun v => { v with usageCount := 0 }

theorem Tree.uncounted_of_bindings {t t' : Tree} (h : t'.bindings = t.bindings) : t'.uncounted = t.uncounted := by
  rw [uncounted, uncounted, h]

theorem Tree.getElem?_uncounted {t t' : Tree} (h : t'.uncounted = t.uncounted) {i : Nat} {v' : Variable}
    (hv : t'.bindings[i]? = some v') :
    ∃ v, t.bindings[i]? = some v ∧ v' = { v with usageCount := v'.usageCount } := by
  have hsame : t'.uncounted[i]? = t.uncounted[i]? := by rw [h]
  simp only [uncounted, Array.getElem?_map, hv, Option.map_some] at hsame
  obtain ⟨v, hv', heq⟩ := Option.map_eq_some_iff.1 hsame.symm
  refine ⟨v, hv', ?_⟩
  cases v
  cases v'
  simp_all

section Operations

variable {α : Type} {a : α} {t t' : Tree} {id old new : NodeId}

theorem run_check_eq_ok_iff {β : Type} {x : Except TreeError β} {f : β → TreeM α} :
    (TreeM.ofExcept x >>= f) t = .ok a t' ↔ ∃ b, x = .ok b ∧ f b t = .ok a t' := by
  cases x with
  | ok b => simp [run_check_ok (x := .ok b) rfl]
  | error e => simp [run_check_error (x := .error e) rfl]

theorem uncounted_newNode {kind : NodeKind} {source : SourceRef} {payload : Payload} {slots : List Slot}
    (h : TreeM.newNode kind source payload slots t = .ok id t') : t'.uncounted = t.uncounted := by
  obtain ⟨-, -, rfl⟩ := newNode_eq_ok h
  exact uncounted_of_bindings (by simp)

theorem uncounted_detach {a : NodeId} (h : TreeM.detach id t = .ok a t') : t'.uncounted = t.uncounted := by
  rw [TreeM.detach, run_get_bind] at h
  obtain ⟨n, -, h⟩ := run_check_eq_ok_iff.1 h
  cases hparent : n.parent with
  | none =>
    simp only [hparent] at h
    split at h <;> (cases h; rfl)
  | some parent =>
    simp only [hparent] at h
    obtain ⟨slots, -, h⟩ := run_check_eq_ok_iff.1 h
    cases h
    exact uncounted_of_bindings (by simp)

theorem uncounted_finalize (h : TreeM.finalize id t = .ok () t') : t'.uncounted = t.uncounted := by
  rw [TreeM.finalize, run_get_bind] at h
  split at h
  · cases h
  · obtain ⟨ids, -, h⟩ := run_check_eq_ok_iff.1 h
    cases h
    rfl

theorem uncounted_replaceWith (h : TreeM.replaceWith old new t = .ok () t') : t'.uncounted = t.uncounted := by
  rw [TreeM.replaceWith, run_get_bind] at h
  obtain ⟨n, -, h⟩ := run_check_eq_ok_iff.1 h
  cases hparent : n.parent with
  | none =>
    simp only [hparent] at h
    cases h
  | some parent =>
    simp only [hparent] at h
    obtain ⟨-, -, h⟩ := run_check_eq_ok_iff.1 h
    split at h
    · cases h
    · obtain ⟨slots, -, h⟩ := run_check_eq_ok_iff.1 h
      cases h
      exact uncounted_of_bindings (by simp)

theorem uncounted_setCapabilities {capabilities : Capabilities} (h : TreeM.setCapabilities id capabilities t = .ok () t') :
    t'.uncounted = t.uncounted := by
  rw [TreeM.setCapabilities, run_get_bind] at h
  obtain ⟨-, -, h⟩ := run_check_eq_ok_iff.1 h
  cases h
  rfl

theorem uncounted_reconsiderVariable {v : VariableId} {count : Nat} (h : TreeM.reconsiderVariable v t = .ok count t') :
    t'.uncounted = t.uncounted := by
  rw [TreeM.reconsiderVariable, run_get_bind] at h
  obtain ⟨b, hb, h⟩ := run_check_eq_ok_iff.1 h
  obtain ⟨count', -, h⟩ := run_check_eq_ok_iff.1 h
  cases h
  have hget := variableAt_eq_ok_iff.1 hb
  refine Array.ext_getElem? fun i => ?_
  simp only [uncounted, Array.getElem?_map, Array.getElem?_setIfInBounds]
  split
  · next hi =>
    subst hi
    obtain ⟨hlt, rfl⟩ := Array.getElem?_eq_some_iff.1 hget
    simp [hlt]
  · rfl

end Operations

/-! ## Computations on trees -/

/-- A computation turns trees that operations have built into such trees, and leaves their variables as they are but for
counts. -/
def Builds {ε α : Type} (x : EStateM ε Tree α) : Prop :=
  ∀ ⦃t a t'⦄, x t = .ok a t' → (t.Built → t'.Built) ∧ t'.uncounted = t.uncounted

namespace Builds

variable {ε α β : Type}

theorem ret (a : α) : Builds (pure a : EStateM ε Tree α) := fun _ _ _ h => by
  cases h
  exact ⟨id, rfl⟩

theorem fail (e : ε) : Builds (throw e : EStateM ε Tree α) := nofun

theorem get : Builds (get : EStateM ε Tree Tree) := fun _ _ _ h => by
  cases h
  exact ⟨id, rfl⟩

theorem bind {x : EStateM ε Tree α} {f : α → EStateM ε Tree β} (hx : Builds x) (hf : ∀ a, Builds (f a)) :
    Builds (x >>= f) := fun _ _ _ h => by
  obtain ⟨a, t₁, h₁, h₂⟩ := run_bind_eq_ok_iff.1 h
  have hfirst := hx h₁
  have hrest := hf a h₂
  exact ⟨hrest.1 ∘ hfirst.1, hrest.2.trans hfirst.2⟩

theorem ofExcept (x : Except TreeError α) : Builds (TreeM.ofExcept x) := by
  cases x with
  | ok a => exact .ret a
  | error e => exact .fail e

theorem query (question : Tree → Except TreeError α) : Builds (TreeM.query question) :=
  .bind .get fun t => .ofExcept (question t)

theorem operation (op : Operation) (hkeeps : ∀ {t t'}, op.run t = .ok () t' → t'.uncounted = t.uncounted) :
    Builds op.run :=
  fun _ _ _ h => ⟨fun hbuilt => hbuilt.of_run op h, hkeeps h⟩

theorem discarded {action : TreeM α} (op : Operation) (hop : op.run = discard action)
    (hkeeps : ∀ {t a t'}, action t = .ok a t' → t'.uncounted = t.uncounted) : Builds action :=
  fun _ _ _ h => ⟨fun hbuilt => hbuilt.of_discard op hop h, hkeeps h⟩

theorem newNode (kind : NodeKind) (source : SourceRef) (payload : Payload) (slots : List Slot) :
    Builds (TreeM.newNode kind source payload slots) :=
  .discarded (.newNode kind source payload slots) rfl uncounted_newNode

theorem detach (id : NodeId) : Builds (TreeM.detach id) := .discarded (.detach id) rfl uncounted_detach

theorem finalize (id : NodeId) : Builds (TreeM.finalize id) := .operation (.finalize id) uncounted_finalize

theorem detachSlot (id : NodeId) (slot : String) : Builds (TreeM.detachSlot id slot) := by
  refine .bind (.query _) fun child? => ?_
  split
  · exact .ret none
  · exact .bind (.detach _) fun _ => .ret _

theorem take : ∀ id? : Option NodeId, Builds (TreeM.take id?)
  | none => .ret none
  | some id => .bind (.detach id) fun _ => .ret _

theorem keepObservable : ∀ ids : List NodeId, Builds (TreeM.keepObservable ids)
  | [] => .ret []
  | id :: rest => by
    refine .bind (.detach id) fun _ => .bind (.query _) fun observable => ?_
    split
    · exact .bind (keepObservable rest) fun _ => .ret _
    · exact .bind (.finalize id) fun _ => keepObservable rest

theorem raiseAfter (raised : RaisedException) (arguments : List NodeId) (source : SourceRef) :
    Builds (TreeM.raiseAfter raised arguments source) := by
  refine .bind (.keepObservable arguments) fun kept => .bind (.newNode ..) fun raise => ?_
  split
  · exact .ret _
  · exact .newNode ..

theorem discardAll : ∀ ids : List NodeId, Builds (TreeM.discardAll ids)
  | [] => .ret ()
  | id :: rest => .bind (.detach id) fun _ => .bind (.finalize id) fun _ => discardAll rest

theorem filterM {p : α → EStateM ε Tree Bool} (hp : ∀ a, Builds (p a)) (l : List α) : Builds (l.filterM p) := by
  have haux (xs : List α) : ∀ acc, Builds (xs.filterAuxM p acc) := by
    induction xs with
    | nil => exact fun acc => .ret acc
    | cons x xs ih => exact fun acc => .bind (hp x) fun _ => ih _
  exact .bind (haux l []) fun _ => .ret _

theorem computeSideEffects (id : NodeId) : Builds (TreeM.computeSideEffects id) := by
  refine .bind .get fun t => .bind (.ofExcept _) fun effects => .bind (.filterM (fun effect => ?_) _) fun dropped => ?_
  · exact .bind (.ofExcept _) fun _ => .ret _
  · dsimp only
    split
    · exact .ret _
    · refine .bind (.discardAll dropped) fun _ => .bind (.query _) fun left => ?_
      split
      · refine .bind (.detachSlot id "expression") fun expression? => ?_
        split <;> exact .ret _
      · exact .ret _

theorem onTree {action : TreeM α} (h : Builds action) : Builds (CompileM.onTree action) := fun t a t' hrun => by
  unfold CompileM.onTree at hrun
  cases haction : action t with
  | ok b t₁ =>
    rw [haction] at hrun
    cases hrun
    exact h haction
  | error e t₁ =>
    rw [haction] at hrun
    cases hrun

theorem locate (locator : Locator) (module : ModuleName) : Builds (HardImport.locate locator module) := by
  unfold HardImport.locate
  dsimp only
  split
  · exact .bind (.ret _) fun _ => .ret _
  · exact .bind (.fail _) fun _ => .ret _

end Builds

/-! ## Replacements -/

namespace ReplaceM

variable {α β : Type}

/-- The tree is built again, no change is forgotten, and nothing but their counts is new about the variables. -/
structure Continues (w w' : Workspace) : Prop where
  built : w.tree.Built → w'.tree.Built
  grows : w.changes.size ≤ w'.changes.size
  uncounted : w'.tree.uncounted = w.tree.uncounted

theorem Continues.refl (w : Workspace) : Continues w w := ⟨id, Nat.le_refl _, rfl⟩

theorem Continues.trans {w w₁ w' : Workspace} (h : Continues w w₁) (h' : Continues w₁ w') : Continues w w' :=
  ⟨h'.built ∘ h.built, Nat.le_trans h.grows h'.grows, h'.uncounted.trans h.uncounted⟩

/-- A computation keeps the tree built, forgets no change, and leaves the variables as they are but for counts. -/
def Tame (x : ReplaceM α) : Prop := ∀ ⦃s w a w'⦄, x s w = .ok a w' → Continues w w'

namespace Tame

variable {x : ReplaceM α} {f : α → ReplaceM β}

theorem ret (a : α) : Tame (pure a) := fun _ _ _ _ h => by
  cases h
  exact .refl _

theorem fail (e : CompileError) : Tame (throw e : ReplaceM α) := fun _ _ _ _ h => by cases h

theorem bind (hx : Tame x) (hf : ∀ a, Tame (f a)) : Tame (x >>= f) := fun _ _ _ _ h => by
  obtain ⟨a, w₁, h₁, h₂⟩ := reads_bind_eq_ok_iff.1 h
  exact (hx h₁).trans (hf a h₂)

theorem discarded (hx : Tame x) : Tame (discard x) := fun s w a w' h => by
  have hrun : EStateM.map (fun _ => ()) (x s) w = .ok a w' := h
  rw [EStateM.map] at hrun
  cases hx' : x s w with
  | ok b w₁ =>
    rw [hx'] at hrun
    cases hrun
    exact hx hx'
  | error e w₁ =>
    rw [hx'] at hrun
    cases hrun

theorem mapM (hf : ∀ a, Tame (f a)) : ∀ l : List α, Tame (l.mapM f)
  | [] => .ret []
  | a :: l => by
    rw [List.mapM_cons]
    exact .bind (hf a) fun _ => .bind (mapM hf l) fun _ => .ret _

theorem foldlM {g : β → α → ReplaceM β} (hg : ∀ b a, Tame (g b a)) : ∀ (l : List α) (b : β), Tame (l.foldlM g b)
  | [], b => .ret b
  | a :: l, b => by
    rw [List.foldlM_cons]
    exact .bind (hg b a) fun b' => foldlM hg l b'

theorem onCompile {action : CompileM α} (h : Builds action) : Tame (onCompile action) := fun s w a w' hrun => by
  unfold ReplaceM.onCompile at hrun
  cases haction : action w.tree with
  | ok b t =>
    rw [haction] at hrun
    cases hrun
    exact ⟨(h haction).1, Nat.le_refl _, (h haction).2⟩
  | error e t =>
    rw [haction] at hrun
    cases hrun

theorem onTree {action : TreeM α} (h : Builds action) : Tame (onTree action) := .onCompile h.onTree

theorem ask (question : Tree → Except TreeError α) : Tame (ask question) := .onTree (.query question)

theorem get : Tame (get : ReplaceM Workspace) := fun _ _ _ _ h => by
  cases h
  exact .refl _

theorem read : Tame (read : ReplaceM Settings) := fun _ _ _ _ h => by
  cases h
  exact .refl _

theorem tree : Tame tree := .bind .get fun _ => .ret _

theorem version : Tame version := .bind .read fun _ => .ret _

theorem recordExit (kind : ExceptionKind) (source : SourceRef) : Tame (recordExit kind source) := fun _ _ _ _ h => by
  cases h
  exact ⟨id, Nat.le_refl _, rfl⟩

theorem abort : Tame abort := fun _ _ _ _ h => by
  cases h
  exact ⟨id, Nat.le_refl _, rfl⟩

end Tame

theorem tame_signal (tags : ChangeTags) (source : SourceRef) (message : String) : Tame (signal tags source message) :=
  fun _ w _ _ h => by
    cases h
    exact ⟨id, Nat.le_of_lt (Nat.lt_of_lt_of_eq (Nat.lt_succ_self _) (ChangeLog.size_add w.changes ..).symm), rfl⟩

theorem tame_replaceNode (old new : NodeId) : Tame (replaceNode old new) :=
  .bind (.onTree (.operation (.replaceWith old new) uncounted_replaceWith)) fun _ => .onTree (.finalize old)

theorem tame_reconsiderVariable (id : VariableId) (source : SourceRef) : Tame (reconsiderVariable id source) := by
  refine .bind (.onTree (.discarded (.reconsiderVariable id) rfl uncounted_reconsiderVariable)) fun _ => ?_
  refine .bind (.ask _) fun v => .bind (.ask _) fun kind => ?_
  split
  · exact tame_signal ..
  · exact .ret ()

end ReplaceM

end Specializer
