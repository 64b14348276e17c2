import Specializer.Proofs.Replacement.Growth
import Specializer.Proofs.Tree.Plain

/-!
# Replacements that leave everything as it is

A computation rests on a tree if it changes neither the tree nor the change log (`Rests`). A cautious computation
(`Cautious`) rests whenever it succeeds without announcing a change, and does so on every tree that differs only in what
is known about single nodes. Handlers of calls and visitors are cautious because they decide on the plain tree and
announce everything they do.
-/

namespace Specializer.ReplaceM

open Specializer.Tree

variable {α β : Type}

/-! ## Resting -/

/-- On a tree, a computation gives a value and changes nothing but the trace. -/
def Rests (s : Settings) (t : Tree) (x : ReplaceM α) (a : α) (aborts : Bool) : Prop :=
  ∀ trace changes, ∃ trace', trace'.abortive = (trace.abortive || aborts) ∧
    x s ⟨t, trace, changes⟩ = .ok a ⟨t, trace', changes⟩

namespace Rests

variable {s : Settings} {t : Tree} {x : ReplaceM α} {f : α → ReplaceM β} {a : α} {b : β} {aborts aborts' : Bool}

theorem ret : Rests s t (pure a) a false := fun trace _ => ⟨trace, by simp, rfl⟩

theorem bind (hx : Rests s t x a aborts) (hf : Rests s t (f a) b aborts') : Rests s t (x >>= f) b (aborts || aborts') :=
  fun trace changes => by
    obtain ⟨trace₁, habort₁, hrun₁⟩ := hx trace changes
    obtain ⟨trace₂, habort₂, hrun₂⟩ := hf trace₁ changes
    exact ⟨trace₂, by rw [habort₂, habort₁, Bool.or_assoc], (reads_bind_of_ok hrun₁).trans hrun₂⟩

theorem ask {question : Tree → Except TreeError α} (h : question t = .ok a) : Rests s t (ask question) a false :=
  fun trace _ => ⟨trace, by simp, ask_ok h⟩

theorem look : Rests s t tree t false := fun trace _ => ⟨trace, by simp, rfl⟩

theorem version : Rests s t version s.options.version false := fun trace _ => ⟨trace, by simp, rfl⟩

theorem recordExit (kind : ExceptionKind) (source : SourceRef) : Rests s t (recordExit kind source) () false :=
  fun _ _ => ⟨_, by simp [Trace.recordExit], rfl⟩

theorem abort : Rests s t abort () true := fun _ _ => ⟨_, by simp [Trace.abort], rfl⟩

/-- What a computation that rests leaves. -/
theorem eq_of_ok {w w' : Workspace} {a' : α} (h : Rests s w.tree x a aborts) (hrun : x s w = .ok a' w') :
    a' = a ∧ w'.tree = w.tree ∧ w'.changes = w.changes ∧ w'.trace.abortive = (w.trace.abortive || aborts) := by
  obtain ⟨trace, habort, hrest⟩ := h w.trace w.changes
  obtain ⟨rfl, rfl⟩ : a' = a ∧ w' = ⟨w.tree, trace, w.changes⟩ := by
    cases hrun.symm.trans hrest
    exact ⟨rfl, rfl⟩
  exact ⟨rfl, rfl, rfl, habort⟩

end Rests

/-! ## Caution -/

/-- Whenever a computation gets to a value of some sort without announcing a change, it rests there, and on every tree
with the same plain tree. -/
structure Cautious (p : α → Prop) (x : ReplaceM α) : Prop where
  tame : Tame x
  rests : ∀ ⦃s w a w'⦄, x s w = .ok a w' → p a → w'.changes.size ≤ w.changes.size →
    ∀ t, t.plain = w.tree.plain → Rests s t x a false

/-- A computation never gets to a value of some sort without announcing a change. -/
structure Busy (p : α → Prop) (x : ReplaceM α) : Prop where
  tame : Tame x
  grows : ∀ ⦃s w a w'⦄, x s w = .ok a w' → p a → w.changes.size < w'.changes.size

namespace Busy

variable {p : α → Prop} {q : β → Prop} {x : ReplaceM α} {f : α → ReplaceM β} {a : α}

theorem cautious (hx : Busy p x) : Cautious p x :=
  ⟨hx.tame, fun _ _ _ _ hrun ha hquiet => absurd (hx.grows hrun ha) (Nat.not_lt.2 hquiet)⟩

theorem ret (ha : ¬ p a) : Busy p (pure a) :=
  ⟨.ret a, fun _ _ _ _ hrun ha' => by
    cases hrun
    exact absurd ha' ha⟩

theorem signal (tags : ChangeTags) (source : SourceRef) (message : String) {p : Unit → Prop} :
    Busy p (signal tags source message) :=
  ⟨tame_signal tags source message, fun _ w _ _ hrun _ => by
    cases hrun
    exact Nat.lt_of_lt_of_eq (Nat.lt_succ_self _) (ChangeLog.size_add w.changes ..).symm⟩

theorem first (hx : Busy (fun _ => True) x) (hf : ∀ a, Tame (f a)) : Busy q (x >>= f) := by
  refine ⟨.bind hx.tame hf, fun s w b w' hrun _ => ?_⟩
  obtain ⟨a, w₁, h₁, h₂⟩ := reads_bind_eq_ok_iff.1 hrun
  exact Nat.lt_of_lt_of_le (hx.grows h₁ trivial) (hf a h₂).2

theorem after (hx : Tame x) (hf : ∀ a, Busy q (f a)) : Busy q (x >>= f) := by
  refine ⟨.bind hx fun a => (hf a).tame, fun s w b w' hrun hb => ?_⟩
  obtain ⟨a, w₁, h₁, h₂⟩ := reads_bind_eq_ok_iff.1 hrun
  exact Nat.lt_of_le_of_lt (hx h₁).2 ((hf a).grows h₂ hb)

end Busy

namespace Cautious

variable {p : α → Prop} {q : β → Prop} {x : ReplaceM α} {f : α → ReplaceM β}

theorem ret (a : α) : Cautious p (pure a) :=
  ⟨.ret a, fun _ _ _ _ hrun _ _ _ _ => by
    cases hrun
    exact .ret⟩

/-- A computation in sequence is cautious if its first part is, and the rest is cautious after values of the right sort
and busy after all others. -/
theorem bind (hx : Cautious p x) (hquiet : ∀ a, p a → Cautious q (f a)) (hbusy : ∀ a, ¬ p a → Busy q (f a)) :
    Cautious q (x >>= f) := by
  have hf (a : α) : Tame (f a) := by
    by_cases ha : p a
    · exact (hquiet a ha).tame
    · exact (hbusy a ha).tame
  refine ⟨.bind hx.tame hf, fun s w b w' hrun hb hsize t ht => ?_⟩
  obtain ⟨a, w₁, h₁, h₂⟩ := reads_bind_eq_ok_iff.1 hrun
  have hgrows₁ := (hx.tame h₁).2
  have hgrows₂ := (hf a h₂).2
  by_cases ha : p a
  · have hrests := hx.rests h₁ ha (by omega)
    obtain ⟨-, htree, -, -⟩ := (hrests w.tree rfl).eq_of_ok h₁
    exact (hrests t ht).bind ((hquiet a ha).rests h₂ hb (by omega) t (by rw [ht, htree]))
  · have hmore := (hbusy a ha).grows h₂ hb
    omega

theorem andThen (hx : Cautious (fun _ => True) x) (hf : ∀ a, Cautious q (f a)) : Cautious q (x >>= f) :=
  hx.bind (fun a _ => hf a) fun _ ha => absurd trivial ha

theorem ask {question : Tree → Except TreeError α} (hquestion : ∀ t, question t.plain = question t) :
    Cautious p (ask question) := by
  refine ⟨.ask question, fun s w a w' hrun _ _ t ht => ?_⟩
  obtain ⟨ha, -⟩ := ask_eq_ok_iff.1 hrun
  exact .ask ((eq_of_plain question hquestion ht).trans ha)

/-- Looking at the tree is cautious if only its plain part matters. -/
theorem look {f : Tree → ReplaceM β} (hplain : ∀ t, f t.plain = f t) (hf : ∀ t, Cautious q (f t)) :
    Cautious q (tree >>= f) := by
  refine ⟨.bind .tree fun t => (hf t).tame, fun s w b w' hrun hb hsize t ht => ?_⟩
  have hrests := (hf w.tree).rests hrun hb hsize t ht
  rw [← eq_of_plain f hplain ht] at hrests
  exact Rests.look.bind hrests

theorem version {p : Version → Prop} : Cautious p version :=
  ⟨.version, fun _ _ _ _ hrun _ _ _ _ => by
    cases hrun
    exact fun trace _ => ⟨trace, by simp, rfl⟩⟩

theorem recordExit (kind : ExceptionKind) (source : SourceRef) {p : Unit → Prop} : Cautious p (recordExit kind source) :=
  ⟨.recordExit kind source, fun _ _ _ _ _ _ _ _ _ => .recordExit kind source⟩

end Cautious

/-! ## Calls -/

section Calls

variable (site : CallSite)

/-- Binding the arguments of a call touches the tree only if they cannot be bound. -/
theorem cautious_bindCall (signature : Signature) :
    Cautious (fun binding => ∀ node, binding ≠ .raised node) (bindCall site signature) := by
  unfold bindCall
  split
  · exact .ret _
  · exact (Busy.after (.onTree (.raiseAfter ..)) fun node => .ret fun hnot => hnot node rfl).cautious

theorem cautious_withBound {signature : Signature} {build : BoundArguments NodeId → ReplaceM (Option NodeId)}
    (hbuild : ∀ args, Cautious (· = none) (build args)) : Cautious (· = none) (withBound site signature build) := by
  refine (cautious_bindCall site signature).bind (fun binding hquiet => ?_) fun binding hraised => ?_
  · cases binding with
    | bound args => exact hbuild args
    | raised node => exact absurd rfl (hquiet node)
    | kept => exact .ret _
  · cases binding with
    | bound args => exact absurd (by simp) hraised
    | raised node => exact .ret (by simp)
    | kept => exact absurd (by simp) hraised

theorem tame_takeSlot (args : BoundArguments NodeId) (index : Nat) : Tame (takeSlot args index) :=
  .bind (.onTree (.take _)) fun _ => .ret _

theorem tame_detachAll (ids : List NodeId) : Tame (ids.mapM fun id => onTree (TreeM.detach id)) :=
  .mapM (fun id => .onTree (.detach id)) ids

/-- What is made is offered. -/
theorem Busy.made {x : ReplaceM NodeId} (hx : Tame x) : Busy (· = none) (x >>= fun node => pure (some node)) :=
  .after hx fun _ => .ret (by simp)

theorem busy_makeOperation (kind : NodeKind) (slots : List Slot) : Busy (· = none) (makeOperation site kind slots) :=
  .made (.onTree (.newNode ..))

theorem cautious_specialize (signature : Signature) (kind : NodeKind) :
    Cautious (· = none) (specialize signature kind site) :=
  cautious_withBound site fun args =>
    (Busy.after (.mapM (tame_takeSlot args) _) fun _ => busy_makeOperation ..).cautious

theorem busy_localsOrGlobals : Busy (· = none) (localsOrGlobals site) := by
  refine .after (.ask _) fun provider? => ?_
  split
  · exact .after (.ret _) fun _ => busy_makeOperation ..
  · exact .after (.ask _) fun _ => .after (.ret _) fun _ => busy_makeOperation ..

theorem tame_openAndRead (args : BoundArguments NodeId) : Tame (openAndRead site args) :=
  .bind (tame_takeSlot args 0) fun _ => .bind (.onTree (.newNode ..)) fun _ => .bind (.onTree (.newNode ..)) fun _ =>
    .bind (.onTree (.newNode ..)) fun _ => .onTree (.newNode ..)

theorem tame_execfileSlots (args : BoundArguments NodeId) : Tame (execfileSlots site args) :=
  .bind (tame_openAndRead site args) fun _ => .bind (tame_takeSlot args 1) fun _ =>
    .bind (tame_takeSlot args 2) fun _ => .ret _

theorem tame_makeEntry (keyword : String × NodeId) : Tame (makeEntry keyword) :=
  .bind (.ask _) fun _ => .bind (.onTree (.detach _)) fun _ => .bind (.onTree (.newNode ..)) fun _ =>
    .onTree (.newNode ..)

theorem cautious_specializeExec : Cautious (· = none) (specializeExec site) := by
  refine Cautious.version.andThen fun version => ?_
  split
  · exact cautious_specialize ..
  · exact .ret _

theorem cautious_specializeExecfile : Cautious (· = none) (specializeExecfile site) := by
  refine Cautious.version.andThen fun version => ?_
  split
  · exact .ret _
  · exact cautious_withBound site fun args =>
      (Busy.after (tame_execfileSlots site args) fun _ => busy_makeOperation ..).cautious

theorem cautious_specializeDir : Cautious (· = none) (specializeDir site) := by
  refine cautious_withBound site fun args => ?_
  split
  · exact (busy_makeOperation ..).cautious
  · exact .ret _

theorem cautious_specializeVars : Cautious (· = none) (specializeVars site) := by
  refine cautious_withBound site fun args => Busy.cautious ?_
  split
  · exact busy_localsOrGlobals site
  · exact .after (tame_takeSlot args 0) fun _ => busy_makeOperation ..

theorem cautious_specializeType : Cautious (· = none) (specializeType site) := by
  unfold specializeType
  split
  · exact .ret _
  · dsimp only
    split
    · exact .ret _
    · exact (Busy.after (tame_detachAll _) fun _ => busy_makeOperation ..).cautious

theorem cautious_specializeOneOrTwo (signature : Signature) (one two : NodeKind) :
    Cautious (· = none) (specializeOneOrTwo signature one two site) := by
  refine cautious_withBound site fun args => Busy.cautious ?_
  refine .after (tame_takeSlot args 0) fun _ => .after (.onTree (.take _)) fun second? => ?_
  split <;> exact busy_makeOperation ..

theorem cautious_specializeDict : Cautious (· = none) (specializeDict site) := by
  refine cautious_withBound site fun args => Busy.cautious ?_
  exact .after (tame_takeSlot args 0) fun _ => .after (.mapM tame_makeEntry _) fun _ => busy_makeOperation ..

theorem cautious_specializeLong : Cautious (· = none) (specializeLong site) := by
  refine Cautious.version.andThen fun version => ?_
  split
  · exact .ret _
  · exact cautious_specialize ..

theorem cautious_specializeRepr : Cautious (· = none) (specializeRepr site) :=
  cautious_withBound site fun args =>
    (Busy.after (tame_takeSlot args 0) fun _ => .made (.onTree (.newNode ..))).cautious

theorem cautious_specializeException : Cautious (· = none) (specializeException site) := by
  refine Cautious.version.andThen fun version => ?_
  split
  · exact .ret _
  · exact cautious_withBound site fun args =>
      (Busy.after (tame_detachAll _) fun _ => .made (.onTree (.newNode ..))).cautious

/-- The handlers of the critical builtins are cautious. -/
theorem cautious_critical {name : String} {handler : CallHandler}
    (h : CallHandler.critical.lookup? name = some handler) : Cautious (· = none) (handler site) := by
  refine DispatchTable.of_lookup? (p := fun e : String × CallHandler => Cautious (· = none) (e.2 site))
    (DispatchTable.forall_ofList ?_) (fun _ hf => nomatch (DispatchTable.fallback_ofList _).symm.trans hf) h
  simp only [List.forall_mem_cons]
  exact ⟨cautious_specialize .., cautious_withBound site fun _ => (busy_localsOrGlobals site).cautious,
    cautious_specialize .., cautious_specializeExec site, cautious_specializeExecfile site, by simp⟩

/-- So are all other handlers. -/
theorem cautious_optional {name : String} {handler : CallHandler}
    (h : CallHandler.optional.lookup? name = some handler) : Cautious (· = none) (handler site) := by
  have hfallback : ∀ handler, CallHandler.optional.fallback = some handler → Cautious (· = none) (handler site) := by
    rintro _ ⟨⟩
    exact cautious_specializeException site
  refine DispatchTable.of_lookup? (t := CallHandler.optional)
    (p := fun e : String × CallHandler => Cautious (· = none) (e.2 site)) (DispatchTable.forall_ofList ?_) hfallback h
  simp only [List.forall_mem_cons]
  refine ⟨cautious_specializeDir site, cautious_specializeVars site, ?_, ?_, ?_, ?_, ?_, ?_,
    cautious_specializeType site, cautious_specializeOneOrTwo .., cautious_specializeOneOrTwo .., ?_, ?_, ?_,
    cautious_specializeDict site, ?_, ?_, ?_, ?_, cautious_specializeLong site, cautious_specializeRepr site, ?_, by simp⟩
  all_goals exact cautious_specialize ..

end Calls

/-! ## Visitors -/

/-- A computation ends with a given value, and rests, unless it announces a change. -/
structure Leaves (a : α) (x : ReplaceM α) : Prop where
  cautious : Cautious (fun _ => True) x
  same : ∀ ⦃s w a' w'⦄, x s w = .ok a' w' → w'.changes.size ≤ w.changes.size → a' = a

namespace Leaves

variable {p : α → Prop} {x : ReplaceM α} {f : α → ReplaceM β} {b : β}

theorem ret (a : α) : Leaves a (pure a) :=
  ⟨.ret a, fun _ _ _ _ hrun _ => by
    cases hrun
    rfl⟩

theorem busy (hx : Busy (fun _ => True) x) (a : α) : Leaves a x :=
  ⟨hx.cautious, fun _ _ _ _ hrun hsize => absurd (hx.grows hrun trivial) (Nat.not_lt.2 hsize)⟩

theorem bind (hx : Cautious p x) (hquiet : ∀ a, p a → Leaves b (f a)) (hbusy : ∀ a, ¬ p a → Busy (fun _ => True) (f a)) :
    Leaves b (x >>= f) := by
  refine ⟨hx.bind (fun a ha => (hquiet a ha).cautious) hbusy, fun s w b' w' hrun hsize => ?_⟩
  obtain ⟨a, w₁, h₁, h₂⟩ := reads_bind_eq_ok_iff.1 hrun
  have hgrows₁ := (hx.tame h₁).2
  by_cases ha : p a
  · exact (hquiet a ha).same h₂ (by omega)
  · have hgrows₂ := (hbusy a ha).grows h₂ trivial
    omega

theorem andThen (hx : Cautious (fun _ => True) x) (hf : ∀ a, Leaves b (f a)) : Leaves b (x >>= f) :=
  bind hx (fun a _ => hf a) fun _ ha => absurd trivial ha

theorem look {f : Tree → ReplaceM β} (hplain : ∀ t, f t.plain = f t) (hf : ∀ t, Leaves b (f t)) :
    Leaves b (tree >>= f) :=
  ⟨.look hplain fun t => (hf t).cautious, fun _ w _ _ hrun hsize => (hf w.tree).same hrun hsize⟩

/-- What follows a computation that leaves everything as it is. -/
theorem next {a : α} (hx : Leaves a x) (hf : ∀ a, Tame (f a)) (hb : Leaves b (f a)) : Leaves b (x >>= f) := by
  have rest {s : Settings} {w w' : Workspace} {b' : β} (hrun : (x >>= f) s w = .ok b' w')
      (hsize : w'.changes.size ≤ w.changes.size) : Rests s w.tree x a false ∧ ∃ w₁, w₁.tree = w.tree ∧
        f a s w₁ = .ok b' w' ∧ w'.changes.size ≤ w₁.changes.size ∧
        ∀ t, t.plain = w.tree.plain → Rests s t x a false := by
    obtain ⟨a', w₁, h₁, h₂⟩ := reads_bind_eq_ok_iff.1 hrun
    have hgrows₁ := (hx.cautious.tame h₁).2
    have hgrows₂ := (hf a' h₂).2
    obtain rfl := hx.same h₁ (by omega)
    have hrests := hx.cautious.rests h₁ trivial (by omega)
    obtain ⟨-, htree, -, -⟩ := (hrests w.tree rfl).eq_of_ok h₁
    exact ⟨hrests w.tree rfl, w₁, htree, h₂, by omega, hrests⟩
  refine ⟨⟨.bind hx.cautious.tame hf, fun s w b' w' hrun _ hsize t ht => ?_⟩, fun s w b' w' hrun hsize => ?_⟩
  · obtain ⟨-, w₁, htree, h₂, hsize₂, hrests⟩ := rest hrun hsize
    exact (hrests t ht).bind (hb.cautious.rests h₂ trivial hsize₂ t (by rw [ht, htree]))
  · obtain ⟨-, w₁, -, h₂, hsize₂, -⟩ := rest hrun hsize
    exact hb.same h₂ hsize₂

end Leaves

section Visitors

variable (id : NodeId)

/-- A finished replacement is announced. -/
theorem busy_replaceThrough (old new : NodeId) (tags : ChangeTags) (source : SourceRef) (message : String)
    (v : VariableId) (result : α) : Busy (fun _ => True) (do
      replaceNode old new
      signal tags source message
      reconsiderVariable v source
      return result) :=
  .after (tame_replaceNode old new) fun _ => .first (.signal tags source message) fun _ =>
    .bind (tame_reconsiderVariable v source) fun _ => .ret result

/-- A look at a call leaves it alone or announces what it did, whatever the handlers are. -/
theorem replaceCall_leaves {handlers : DispatchTable String CallHandler}
    (hhandlers : ∀ {name handler}, handlers.lookup? name = some handler → ∀ site, Cautious (· = none) (handler site)) :
    Leaves id (replaceCall handlers id) := by
  refine .look (fun t => by simp only [calledBuiltin?_plain]) fun t => .andThen .version fun version => ?_
  split
  · split
    · next hhandler =>
      refine .andThen (.ask fun t => readSite_plain ..) fun site? => ?_
      split
      · next site =>
        refine .bind (hhandlers hhandler site) (fun replacement? hnone => hnone ▸ .ret id) fun replacement? hsome => ?_
        cases replacement? with
        | none => exact absurd rfl hsome
        | some replacement => exact .after (.ask _) fun _ => .after (.ask _) fun _ => busy_replaceThrough ..
      · exact .ret id
    · exact .ret id
  · exact .ret id

theorem cautious_isInClass {p : Bool → Prop} : Cautious p (isInClass id) := by
  refine .andThen (.ask fun t => t.providerOf_plain id) fun provider? => ?_
  split
  · exact .ret _
  · exact .andThen (.ask fun t => t.kind_plain _) fun _ => .ret _

theorem replaceExecStatement_leaves : Leaves none (replaceExecStatement id) := by
  refine .andThen (.ask fun t => t.kind_plain id) fun kind => ?_
  split
  · exact .ret none
  refine .andThen (.ask fun t => t.child_plain id "expression") fun expression? => ?_
  split
  · refine .look (fun t => by simp only [calledBuiltin?_plain]) fun t => .andThen .version fun version => ?_
    split
    · refine .andThen .version fun version => ?_
      split
      · exact .ret none
      refine .andThen (cautious_isInClass id) fun inClass => ?_
      split
      · exact .ret none
      refine .andThen (.ask fun t => readSite_plain ..) fun site? => ?_
      split
      · next site =>
        split
        · next args hbind =>
          split
          · exact .ret none
          refine .busy ?_ none
          exact .after (tame_execfileSlots site args) fun _ => .after (.onTree (.newNode ..)) fun _ =>
            busy_replaceThrough ..
        · exact .ret none
      · exact .ret none
    · exact .ret none
  · exact .ret none

theorem replaceCriticalBuiltin_leaves : Leaves id (replaceCriticalBuiltin id) := by
  have hcall := replaceCall_leaves id fun h site => cautious_critical site h
  refine (replaceExecStatement_leaves id).next (fun statement? => ?_) hcall
  cases statement? with
  | none => exact hcall.cautious.tame
  | some statement => exact .ret statement

theorem replaceOptionalBuiltin_leaves : Leaves id (replaceOptionalBuiltin id) :=
  replaceCall_leaves id fun h site => cautious_optional site h

/-- A name is made into what it stands for, or it stands for nothing. -/
theorem cautious_makeNamed (name : String) (source : SourceRef) : Cautious (· = none) (makeNamed name source) := by
  unfold makeNamed
  split
  · exact (Busy.after (.onTree (.newNode ..)) fun _ => .ret (by simp)).cautious
  · refine Cautious.version.andThen fun version => ?_
    split
    · exact (Busy.after (.onTree (.newNode ..)) fun _ => .ret (by simp)).cautious
    · exact .ret _

theorem replaceName_leaves : Leaves id (replaceName id) := by
  refine .look (fun t => by simp only [readOnlyVariable?_plain]) fun t => ?_
  split
  · next v b _ =>
    refine .andThen (.ask fun t => t.source_plain id) fun source => ?_
    refine .bind (cautious_makeNamed b.name source) (fun made? hnone => hnone ▸ .ret id) fun made? hsome => ?_
    cases made? with
    | none => exact absurd rfl hsome
    | some made => exact busy_replaceThrough ..
  · exact .ret id

end Visitors

end Specializer.ReplaceM
