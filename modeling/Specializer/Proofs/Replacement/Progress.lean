import Specializer.Proofs.Replacement.Surroundings
import Specializer.Proofs.Tree.Evolution

/-!
# Replacements are made in steps

A handler builds what it offers without hanging anything below a node that was there before, tears down nothing but
arguments, and what the trace has recorded stays recorded (`Preparing`). Then the node that was built takes the place of the
one that was looked at. So a look at a node, and a computation of a node, is one step in its place (`enter_steps`,
`compute_steps`): old nodes keep what they are, and the only new link to an old node is that of the node now in the place.
-/

namespace Specializer

open Specializer.Tree

/-! ## Computations on trees -/

/-- A computation hangs nothing below a node that was there before. -/
def Shapes {ε α : Type} (torn : NodeId → Prop) (x : EStateM ε Tree α) : Prop :=
  ∀ ⦃t a t'⦄, t.Consistent → x t = .ok a t' → Reshaped torn t t'

namespace Shapes

variable {ε α β : Type} {torn : NodeId → Prop}

theorem ret (a : α) : Shapes torn (pure a : EStateM ε Tree α) := fun _ _ _ hc h => by
  cases h
  exact .refl hc

theorem fail (e : ε) : Shapes torn (throw e : EStateM ε Tree α) := nofun

theorem get : Shapes torn (get : EStateM ε Tree Tree) := fun _ _ _ hc h => by
  cases h
  exact .refl hc

theorem bind {x : EStateM ε Tree α} {f : α → EStateM ε Tree β} (hx : Shapes torn x) (hf : ∀ a, Shapes torn (f a)) :
    Shapes torn (x >>= f) := fun _ _ _ hc h => by
  obtain ⟨a, t₁, h₁, h₂⟩ := run_bind_eq_ok_iff.1 h
  have hfirst := hx hc h₁
  exact hfirst.trans (hf a hfirst.consistent h₂)

theorem ofExcept (x : Except TreeError α) : Shapes torn (TreeM.ofExcept x) := by
  cases x with
  | ok a => exact .ret a
  | error e => exact .fail e

theorem query (question : Tree → Except TreeError α) : Shapes torn (TreeM.query question) :=
  .bind .get fun t => .ofExcept (question t)

theorem newNode {kind : NodeKind} (hkind : kind ≠ .variableRef) (source : SourceRef) (payload : Payload)
    (slots : List Slot) : Shapes torn (TreeM.newNode kind source payload slots) := fun _ _ _ hc h => .newNode hc hkind h

theorem detach (id : NodeId) : Shapes torn (TreeM.detach id) := fun _ _ _ hc h => .detach hc h

theorem finalize {id : NodeId} (htorn : torn id) : Shapes torn (TreeM.finalize id) := fun _ _ _ hc h => .finalize hc htorn h

theorem setCapabilities (id : NodeId) : Shapes torn (TreeM.setCapabilities id .quietImport) :=
  fun _ _ _ hc h => .setCapabilities hc h

theorem detachSlot (id : NodeId) (slot : String) : Shapes torn (TreeM.detachSlot id slot) := by
  refine .bind (.query _) fun child? => ?_
  split
  · exact .ret none
  · exact .bind (.detach _) fun _ => .ret _

theorem take : ∀ id? : Option NodeId, Shapes torn (TreeM.take id?)
  | none => .ret none
  | some id => .bind (.detach id) fun _ => .ret _

theorem keepObservable : ∀ {ids : List NodeId}, (∀ id ∈ ids, torn id) → Shapes torn (TreeM.keepObservable ids)
  | [], _ => .ret []
  | id :: rest, htorn => by
    have hrest : Shapes torn (TreeM.keepObservable rest) := keepObservable fun a ha => htorn a (by simp [ha])
    refine .bind (.detach id) fun _ => .bind (.query _) fun observable => ?_
    split
    · exact .bind hrest fun _ => .ret _
    · exact .bind (.finalize (htorn id (by simp))) fun _ => hrest

theorem raiseAfter (raised : RaisedException) {arguments : List NodeId} (source : SourceRef)
    (htorn : ∀ a ∈ arguments, torn a) : Shapes torn (TreeM.raiseAfter raised arguments source) := by
  refine .bind (.keepObservable htorn) fun kept => .bind (.newNode (by decide) ..) fun raise => ?_
  split
  · exact .ret _
  · exact .newNode (by decide) ..

theorem discardAll : ∀ {ids : List NodeId}, (∀ id ∈ ids, torn id) → Shapes torn (TreeM.discardAll ids)
  | [], _ => .ret ()
  | id :: _, htorn => .bind (.detach id) fun _ => .bind (.finalize (htorn id (by simp))) fun _ =>
    discardAll fun a ha => htorn a (by simp [ha])

theorem filterM {p : α → EStateM ε Tree Bool} (hp : ∀ a, Shapes torn (p a)) (l : List α) : Shapes torn (l.filterM p) := by
  have haux (xs : List α) : ∀ acc, Shapes torn (xs.filterAuxM p acc) := by
    induction xs with
    | nil => exact fun acc => .ret acc
    | cons x xs ih => exact fun acc => .bind (hp x) fun _ => ih _
  exact .bind (haux l []) fun _ => .ret _

theorem computeSideEffects (id : NodeId) : Shapes (fun _ => True) (TreeM.computeSideEffects id) := by
  refine .bind .get fun t => .bind (.ofExcept _) fun effects => .bind (.filterM (fun effect => ?_) _) fun dropped => ?_
  · exact .bind (.ofExcept _) fun _ => .ret _
  · dsimp only
    split
    · exact .ret _
    · refine .bind (.discardAll fun _ _ => trivial) fun _ => .bind (.query _) fun left => ?_
      split
      · refine .bind (.detachSlot id "expression") fun expression? => ?_
        split <;> exact .ret _
      · exact .ret _

theorem onTree {action : TreeM α} (h : Shapes torn action) : Shapes torn (CompileM.onTree action) := fun t a t' hc hrun => by
  unfold CompileM.onTree at hrun
  cases haction : action t with
  | ok b t₁ =>
    rw [haction] at hrun
    cases hrun
    exact h hc haction
  | error e t₁ =>
    rw [haction] at hrun
    cases hrun

theorem locate (locator : Locator) (module : ModuleName) : Shapes torn (HardImport.locate locator module) := by
  unfold HardImport.locate
  dsimp only
  split
  · exact .bind (.ret _) fun _ => .ret _
  · exact .bind (.fail _) fun _ => .ret _

theorem makeModule (locator : Locator) (module : ModuleName) (source : SourceRef) :
    Shapes torn (HardImport.makeModule locator module source) :=
  .bind (.locate ..) fun _ => .onTree (.newNode (by decide) ..)

theorem makeName (locator : Locator) (version : Version) (module : ModuleName) (name : String) (source : SourceRef) :
    Shapes torn (HardImport.makeName locator version module name source) :=
  .bind (.locate ..) fun _ => .onTree (.newNode (by split <;> decide) ..)

end Shapes

/-! ## Handlers -/

namespace ReplaceM

variable {α β : Type} {s : Settings} {w w₁ w' : Workspace} {id id' : NodeId}

/-- What a trace has recorded is kept. -/
structure Remembers (w w' : Workspace) : Prop where
  exits : w.trace.exits ⊆ w'.trace.exits
  abortive : w.trace.abortive = true → w'.trace.abortive = true

theorem Remembers.refl (w : Workspace) : Remembers w w := ⟨List.Subset.refl _, id⟩

theorem Remembers.trans (h : Remembers w w₁) (h' : Remembers w₁ w') : Remembers w w' :=
  ⟨List.Subset.trans h.exits h'.exits, h'.abortive ∘ h.abortive⟩

theorem Remembers.of_trace (h : w'.trace = w.trace) : Remembers w w' := by
  constructor
  · rw [h]
    exact List.Subset.refl _
  · rw [h]
    exact id

/-- A workspace while something is built. -/
structure Prepares (torn : NodeId → Prop) (w w' : Workspace) : Prop extends Remembers w w' where
  reshaped : Reshaped torn w.tree w'.tree
  changes : w'.changes = w.changes

/-- A computation builds something without putting it into a place. -/
def Preparing (torn : NodeId → Prop) (x : ReplaceM α) : Prop :=
  ∀ ⦃s w a w'⦄, w.tree.Consistent → x s w = .ok a w' → Prepares torn w w'

namespace Preparing

variable {x : ReplaceM α} {f : α → ReplaceM β} {torn : NodeId → Prop}

theorem ret (a : α) : Preparing torn (pure a) := fun _ _ _ _ hc h => by
  cases h
  exact ⟨.refl _, .refl hc, rfl⟩

theorem bind (hx : Preparing torn x) (hf : ∀ a, Preparing torn (f a)) : Preparing torn (x >>= f) := fun _ _ _ _ hc h => by
  obtain ⟨a, w₁, h₁, h₂⟩ := reads_bind_eq_ok_iff.1 h
  have hfirst := hx hc h₁
  have hrest := hf a hfirst.reshaped.consistent h₂
  exact ⟨hfirst.toRemembers.trans hrest.toRemembers, hfirst.reshaped.trans hrest.reshaped,
    hrest.changes.trans hfirst.changes⟩

theorem mono {torn' : NodeId → Prop} (hx : Preparing torn x) (himp : ∀ a, torn a → torn' a) : Preparing torn' x :=
  fun _ _ _ _ hc h =>
    have hfirst := hx hc h
    ⟨hfirst.toRemembers, hfirst.reshaped.mono himp, hfirst.changes⟩

theorem mapM (hf : ∀ a, Preparing torn (f a)) : ∀ l : List α, Preparing torn (l.mapM f)
  | [] => .ret []
  | a :: l => by
    rw [List.mapM_cons]
    exact .bind (hf a) fun _ => .bind (mapM hf l) fun _ => .ret _

theorem onCompile {action : CompileM α} (h : Shapes torn action) : Preparing torn (onCompile action) := by
  intro s w a w' hc hrun
  unfold ReplaceM.onCompile at hrun
  cases haction : action w.tree with
  | ok b t =>
    rw [haction] at hrun
    cases hrun
    exact ⟨.of_trace rfl, h hc haction, rfl⟩
  | error e t =>
    rw [haction] at hrun
    cases hrun

theorem onTree {action : TreeM α} (h : Shapes torn action) : Preparing torn (onTree action) := .onCompile h.onTree

theorem ask (question : Tree → Except TreeError α) : Preparing torn (ask question) := .onTree (.query question)

theorem newNode {kind : NodeKind} (hkind : kind ≠ .variableRef) (source : SourceRef) (payload : Payload)
    (slots : List Slot) : Preparing torn (ReplaceM.onTree (TreeM.newNode kind source payload slots)) :=
  .onTree (.newNode hkind source payload slots)

theorem read : Preparing torn (read : ReplaceM Settings) := fun _ _ _ _ hc h => by
  cases h
  exact ⟨.refl _, .refl hc, rfl⟩

theorem tree : Preparing torn tree := fun _ _ _ _ hc h => by
  cases h
  exact ⟨.refl _, .refl hc, rfl⟩

theorem version : Preparing torn version := .bind .read fun _ => .ret _

theorem recordExit (kind : ExceptionKind) (source : SourceRef) : Preparing torn (recordExit kind source) :=
  fun _ _ _ _ hc h => by
    cases h
    exact ⟨⟨List.subset_append_left .., id⟩, .refl hc, rfl⟩

theorem abort : Preparing torn abort := fun _ _ _ _ hc h => by
  cases h
  exact ⟨⟨List.Subset.refl _, fun _ => rfl⟩, .refl hc, rfl⟩

end Preparing

section Calls

variable (site : CallSite) {torn : NodeId → Prop}

theorem preparing_withBound {signature : Signature} {build : BoundArguments NodeId → ReplaceM (Option NodeId)}
    (hbuild : ∀ args, Preparing (· ∈ site.arguments) (build args)) :
    Preparing (· ∈ site.arguments) (withBound site signature build) := by
  have hbind : Preparing (· ∈ site.arguments) (bindCall site signature) := by
    unfold bindCall
    split
    · exact .ret _
    · exact .bind (.onTree (.raiseAfter _ _ fun _ ha => ha)) fun _ => .ret _
  refine .bind hbind fun binding => ?_
  cases binding with
  | bound args => exact hbuild args
  | raised node => exact .ret _
  | kept => exact .ret _

theorem preparing_takeSlot (args : BoundArguments NodeId) (index : Nat) : Preparing torn (takeSlot args index) :=
  .bind (.onTree (.take _)) fun _ => .ret _

theorem preparing_detachAll (ids : List NodeId) : Preparing torn (ids.mapM fun id => onTree (TreeM.detach id)) :=
  .mapM (fun id => .onTree (.detach id)) ids

theorem preparing_makeOperation {kind : NodeKind} (hkind : kind ≠ .variableRef) (slots : List Slot) :
    Preparing torn (makeOperation site kind slots) :=
  .bind (.newNode hkind ..) fun _ => .ret _

theorem preparing_specialize (signature : Signature) {kind : NodeKind} (hkind : kind ≠ .variableRef) :
    Preparing (· ∈ site.arguments) (specialize signature kind site) :=
  preparing_withBound site fun args => .bind (.mapM (preparing_takeSlot args) _) fun _ => preparing_makeOperation site hkind _

theorem preparing_localsOrGlobals : Preparing torn (localsOrGlobals site) := by
  refine .bind (.ask _) fun provider? => ?_
  split
  · exact .bind (.ret _) fun _ => preparing_makeOperation site (by split <;> decide) _
  · exact .bind (.ask _) fun _ => .bind (.ret _) fun _ => preparing_makeOperation site (by split <;> decide) _

theorem preparing_execfileSlots (args : BoundArguments NodeId) : Preparing torn (execfileSlots site args) := by
  have hopen : Preparing torn (openAndRead site args) :=
    .bind (preparing_takeSlot args 0) fun _ => .bind (.newNode (by decide) ..) fun _ =>
      .bind (.newNode (by decide) ..) fun _ => .bind (.newNode (by decide) ..) fun _ => .newNode (by decide) ..
  exact .bind hopen fun _ => .bind (preparing_takeSlot args 1) fun _ => .bind (preparing_takeSlot args 2) fun _ => .ret _

theorem preparing_makeEntry (keyword : String × NodeId) : Preparing torn (makeEntry keyword) :=
  .bind (.ask _) fun _ => .bind (.onTree (.detach _)) fun _ => .bind (.newNode (by decide) ..) fun _ =>
    .newNode (by decide) ..

theorem preparing_specializeExec : Preparing (· ∈ site.arguments) (specializeExec site) := by
  refine .bind .version fun version => ?_
  split
  · exact preparing_specialize site _ (by decide)
  · exact .ret _

theorem preparing_specializeExecfile : Preparing (· ∈ site.arguments) (specializeExecfile site) := by
  refine .bind .version fun version => ?_
  split
  · exact .ret _
  · exact preparing_withBound site fun args =>
      .bind (preparing_execfileSlots site args) fun _ => preparing_makeOperation site (by decide) _

theorem preparing_specializeDir : Preparing (· ∈ site.arguments) (specializeDir site) := by
  refine preparing_withBound site fun args => ?_
  split
  · exact preparing_makeOperation site (by decide) _
  · exact .ret _

theorem preparing_specializeVars : Preparing (· ∈ site.arguments) (specializeVars site) := by
  refine preparing_withBound site fun args => ?_
  split
  · exact preparing_localsOrGlobals site
  · exact .bind (preparing_takeSlot args 0) fun _ => preparing_makeOperation site (by decide) _

theorem preparing_specializeType : Preparing (· ∈ site.arguments) (specializeType site) := by
  unfold specializeType
  split
  · exact .ret _
  dsimp only
  split
  · exact .ret _
  next kind hkind =>
  refine .bind (preparing_detachAll _) fun _ => preparing_makeOperation site ?_ _
  rintro rfl
  split at hkind <;> cases hkind

theorem preparing_specializeOneOrTwo (signature : Signature) {one two : NodeKind} (hone : one ≠ .variableRef)
    (htwo : two ≠ .variableRef) : Preparing (· ∈ site.arguments) (specializeOneOrTwo signature one two site) := by
  refine preparing_withBound site fun args => ?_
  refine .bind (preparing_takeSlot args 0) fun _ => .bind (.onTree (.take _)) fun second? => ?_
  split
  · exact preparing_makeOperation site hone _
  · exact preparing_makeOperation site htwo _

theorem preparing_specializeDict : Preparing (· ∈ site.arguments) (specializeDict site) :=
  preparing_withBound site fun args => .bind (preparing_takeSlot args 0) fun _ =>
    .bind (.mapM preparing_makeEntry _) fun _ => preparing_makeOperation site (by decide) _

theorem preparing_specializeLong : Preparing (· ∈ site.arguments) (specializeLong site) := by
  refine .bind .version fun version => ?_
  split
  · exact .ret _
  · exact preparing_specialize site _ (by decide)

theorem preparing_specializeRepr : Preparing (· ∈ site.arguments) (specializeRepr site) :=
  preparing_withBound site fun args => .bind (preparing_takeSlot args 0) fun _ =>
    .bind (.newNode (by decide) ..) fun _ => .ret _

theorem preparing_specializeException : Preparing (· ∈ site.arguments) (specializeException site) := by
  refine .bind .version fun version => ?_
  split
  · exact .ret _
  · exact preparing_withBound site fun args => .bind (preparing_detachAll _) fun _ =>
      .bind (.newNode (by decide) ..) fun _ => .ret _

theorem preparing_critical {name : String} {handler : CallHandler}
    (h : CallHandler.critical.lookup? name = some handler) : Preparing (· ∈ site.arguments) (handler site) := by
  refine DispatchTable.of_lookup? (p := fun e : String × CallHandler => Preparing (· ∈ site.arguments) (e.2 site))
    (DispatchTable.forall_ofList ?_) (fun _ hf => nomatch (DispatchTable.fallback_ofList _).symm.trans hf) h
  simp only [List.forall_mem_cons]
  exact ⟨preparing_specialize site _ (by decide), preparing_withBound site fun _ => preparing_localsOrGlobals site,
    preparing_specialize site _ (by decide), preparing_specializeExec site, preparing_specializeExecfile site, by simp⟩

theorem preparing_optional {name : String} {handler : CallHandler}
    (h : CallHandler.optional.lookup? name = some handler) : Preparing (· ∈ site.arguments) (handler site) := by
  have hfallback : ∀ handler, CallHandler.optional.fallback = some handler → Preparing (· ∈ site.arguments) (handler site) := by
    rintro _ ⟨⟩
    exact preparing_specializeException site
  refine DispatchTable.of_lookup? (t := CallHandler.optional)
    (p := fun e : String × CallHandler => Preparing (· ∈ site.arguments) (e.2 site)) (DispatchTable.forall_ofList ?_) hfallback h
  simp only [List.forall_mem_cons]
  refine ⟨preparing_specializeDir site, preparing_specializeVars site, ?_, ?_, ?_, ?_, ?_, ?_,
    preparing_specializeType site, preparing_specializeOneOrTwo site _ (by decide) (by decide),
    preparing_specializeOneOrTwo site _ (by decide) (by decide), ?_, ?_, ?_, preparing_specializeDict site, ?_, ?_, ?_, ?_,
    preparing_specializeLong site, preparing_specializeRepr site, ?_, by simp⟩
  all_goals exact preparing_specialize site _ (by decide)

theorem preparing_isInClass (id : NodeId) : Preparing torn (isInClass id) := by
  refine .bind (.ask _) fun provider? => ?_
  split
  · exact .ret _
  · exact .bind (.ask _) fun _ => .ret _

theorem preparing_makeNamed (name : String) (source : SourceRef) : Preparing torn (makeNamed name source) := by
  unfold makeNamed
  split
  · exact .bind (.newNode (by decide) ..) fun _ => .ret _
  · refine .bind .version fun version => ?_
    split
    · exact .bind (.newNode (by decide) ..) fun _ => .ret _
    · exact .ret _

end Calls

/-! ## Computations of nodes -/

section Computations

variable (id : NodeId) {torn : NodeId → Prop}

theorem preparing_foldBuiltin (signature : Signature) : Preparing torn (foldBuiltin id signature) := by
  unfold foldBuiltin
  split
  · exact .ret _
  refine .bind (.ask _) fun arguments? => ?_
  split
  · exact .ret _
  refine .bind (.ask _) fun source => .bind .version fun version => ?_
  split
  · exact .bind (.newNode (by decide) ..) fun _ => .ret _
  · exact .bind (.recordExit ..) fun _ => .bind (.newNode (by decide) ..) fun _ => .ret _
  · exact .ret _

theorem preparing_foldByKey (key : String) : Preparing torn (foldByKey key id) := by
  unfold foldByKey
  split
  · exact preparing_foldBuiltin id _
  · exact .ret _

theorem preparing_foldType : Preparing torn (foldType id) := by
  refine .bind (.ask _) fun value? => .bind .tree fun t => ?_
  split
  · split
    · exact .ret _
    refine .bind .version fun version => .bind .version fun version' => ?_
    split
    · exact .ret _
    · exact .bind (.ask _) fun _ => .bind (.newNode (by decide) ..) fun _ => .ret _
  · exact .ret _

theorem preparing_hasSideEffects (slot : String) : Preparing torn (hasSideEffects id slot) := by
  refine .bind (.ask _) fun operand? => ?_
  split
  · exact .ret _
  · exact .ask _

theorem preparing_importOperand (slot : String) : Preparing torn (importOperand id slot) := by
  refine .bind (.ask _) fun operand? => ?_
  split
  · exact .ret _
  · refine .bind .tree fun t => ?_
    split <;> exact .ret _

theorem preparing_foldImport : Preparing torn (foldImport id) := by
  refine .bind (preparing_hasSideEffects id "globals") fun globals => ?_
  split
  · exact .ret _
  refine .bind (preparing_hasSideEffects id "locals") fun locals => ?_
  split
  · exact .ret _
  refine .bind (preparing_importOperand id "name") fun name => ?_
  split
  case h_2 => exact .ret _
  refine .bind (preparing_importOperand id "fromlist") fun fromlist => ?_
  split
  case h_2 => exact .ret _
  refine .bind .version fun version => .bind (preparing_importOperand id "level") fun level => ?_
  split
  case h_2 => exact .ret _
  exact .bind (.ask _) fun _ => .bind (.newNode (by decide) ..) fun _ => .ret _

theorem preparing_computeImportModule (spec : ImportSpec) (source : SourceRef) :
    Preparing torn (computeImportModule id spec source) := by
  refine .bind .read fun settings => .bind .tree fun t => ?_
  dsimp only
  split
  · exact .bind (.recordExit ..) fun _ => .ret _
  split
  · exact .bind (.onCompile (.makeModule ..)) fun _ => .ret _
  split
  · refine .bind (.ask _) fun capabilities => ?_
    split
    · exact .ret _
    · exact .bind (.onTree (.setCapabilities id)) fun _ => .ret _
  · exact .bind (.recordExit ..) fun _ => .ret _

theorem preparing_computeImportName (name : String) (source : SourceRef) :
    Preparing torn (computeImportName id name source) := by
  refine .bind (.ask _) fun module? => ?_
  split
  on_goal 2 => refine .bind (.ask _) fun payload => ?_
  all_goals
    refine .bind (.ret _) fun payload? => ?_
    dsimp only
    split
    · exact .bind (.recordExit ..) fun _ => .ret _
    · refine .bind .read fun _ => .bind .version fun _ => .bind (.onCompile (.makeName ..)) fun _ => ?_
      refine .bind (.ask _) fun kind => ?_
      split
      · exact .bind (.recordExit ..) fun _ => .ret _
      · exact .ret _

theorem preparing_computeNode : Preparing (fun _ => True) (computeNode id) := by
  refine .bind (.ask _) fun n => ?_
  split
  · split
    · exact .bind (.recordExit ..) fun _ => .bind .abort fun _ => .ret _
    · exact .bind .abort fun _ => .ret _
  · exact .onTree (.computeSideEffects id)
  · exact .bind (.recordExit ..) fun _ => .ret _
  · refine .bind (preparing_foldBuiltin id _) fun c => ?_
    split
    · exact .ret _
    · exact .bind (.recordExit ..) fun _ => .ret _
  · split
    · exact preparing_computeImportModule id _ _
    · exact .ret _
  · split
    · exact preparing_computeImportName id _ _
    · exact .ret _
  · exact .bind (.recordExit ..) fun _ => .ret _
  · split
    · exact .bind (.recordExit ..) fun _ => .ret _
    · exact .ret _

theorem preparing_of_foldHandler {key : String} {handler : FoldHandler}
    (h : foldHandlers.lookup? key = some handler) : Preparing (fun _ => True) (handler id) := by
  refine DispatchTable.of_lookup? (t := foldHandlers) (p := fun e : String × FoldHandler => Preparing (fun _ => True) (e.2 id))
    (DispatchTable.forall_ofList ?_) (fun _ hf => nomatch (DispatchTable.fallback_ofList _).symm.trans hf) h
  rw [List.forall_mem_append, List.forall_mem_map]
  refine ⟨?_, fun key _ => preparing_foldByKey id key⟩
  simp only [List.forall_mem_cons]
  exact ⟨preparing_foldType id, preparing_computeNode id, preparing_foldImport id, by simp⟩

end Computations

/-! ## Steps -/

/-- A workspace after a step at a node. -/
structure Steps (w w' : Workspace) (id id' : NodeId) : Prop extends Remembers w w' where
  stepped : w.tree.Stepped w'.tree id id'

theorem Steps.trans {mid : NodeId} (hid : id.index < w.tree.nodes.size) (h : Steps w w₁ id mid)
    (h' : Steps w₁ w' mid id') : Steps w w' id id' :=
  ⟨h.toRemembers.trans h'.toRemembers, h.stepped.trans hid h'.stepped⟩

/-- A computation is a step at a node that leaves `out a` in its place. -/
def Stepping (id : NodeId) (out : α → NodeId) (x : ReplaceM α) : Prop :=
  ∀ ⦃s w a w'⦄, w.tree.Consistent → id.index < w.tree.nodes.size → x s w = .ok a w' → Steps w w' id (out a)

theorem trace_of_replaceNode {new : NodeId} (hc : w.tree.Consistent) (h : replaceNode id new s w = .ok () w') :
    w'.trace = w.trace := by
  obtain ⟨-, hw'⟩ := replaceNode_eq_ok hc h
  rw [hw']

theorem trace_of_reconsiderVariable {v : VariableId} {source : SourceRef}
    (h : reconsiderVariable v source s w = .ok () w') : w'.trace = w.trace := by
  obtain ⟨count, w₁, hrun, h⟩ := reads_bind_eq_ok_iff.1 h
  obtain ⟨t, -, rfl⟩ := onTree_eq_ok_iff.1 hrun
  obtain ⟨b, -, h⟩ := ask_bind_eq_ok_iff.1 h
  obtain ⟨kind, -, h⟩ := ask_bind_eq_ok_iff.1 h
  split at h <;>
  · cases h
    rfl

namespace Stepping

variable {out : α → NodeId} {out' : β → NodeId} {x : ReplaceM α} {f : α → ReplaceM β}

theorem ret {a : α} (h : out a = id) : Stepping id out (pure a) := fun _ _ _ _ hc hid hrun => by
  cases hrun
  refine ⟨.refl _, ?_⟩
  rw [h]
  exact .refl hc hid

theorem after (hx : Preparing (fun _ => True) x) (hf : ∀ a, Stepping id out' (f a)) : Stepping id out' (x >>= f) :=
  fun s w b w' hc hid hrun => by
    obtain ⟨a, w₁, h₁, h₂⟩ := reads_bind_eq_ok_iff.1 hrun
    obtain ⟨hremembers, hreshaped, -⟩ := hx hc h₁
    have hrest := hf a hreshaped.consistent (Nat.lt_of_lt_of_le hid hreshaped.size) h₂
    exact Steps.trans hid ⟨hremembers, hreshaped.stepped hid⟩ hrest

theorem next (hx : Stepping id out x) (hf : ∀ a, Stepping (out a) out' (f a)) : Stepping id out' (x >>= f) :=
  fun s w b w' hc hid hrun => by
    obtain ⟨a, w₁, h₁, h₂⟩ := reads_bind_eq_ok_iff.1 hrun
    have hfirst := hx hc hid h₁
    exact hfirst.trans hid (hf a hfirst.stepped.consistent hfirst.stepped.known h₂)

theorem replaceThrough {new : NodeId} {tags : ChangeTags} {source : SourceRef} {message : String} {v : VariableId}
    {result : α} (hresult : out result = new) : Stepping id out (do
      replaceNode id new
      signal tags source message
      reconsiderVariable v source
      return result) := fun s w a w' hc _ hrun => by
  obtain ⟨⟨⟩, w₁, hreplace, hrun⟩ := reads_bind_eq_ok_iff.1 hrun
  rw [reads_bind_of_ok (signal_ok ..)] at hrun
  obtain ⟨⟨⟩, w₂, hcount, hrun⟩ := reads_bind_eq_ok_iff.1 hrun
  cases hrun
  obtain ⟨⟨parent, hr⟩, -⟩ := replaceNode_eq_ok hc hreplace
  obtain ⟨hnodes, -⟩ := reconsiderVariable_eq_ok hcount
  have hc' := consistent_of_reconsiderVariable (w := { w₁ with changes := w₁.changes.add tags source message })
    hr.consistent hcount
  have htrace := (trace_of_reconsiderVariable hcount).trans (trace_of_replaceNode hc hreplace :)
  refine ⟨.of_trace htrace, ?_⟩
  exact hresult ▸ (hr.stepped hc).congr hnodes hc'

theorem applyComputed (c : Computed) : Stepping id (fun id' => id') (applyComputed id c) := by
  unfold ReplaceM.applyComputed
  split
  · exact .ret rfl
  refine .after (.ask _) fun source => ?_
  split
  · next hsame =>
    intro s w id' w' hc hid hrun
    cases hrun
    refine ⟨.of_trace rfl, ?_⟩
    rw [hsame]
    exact .refl hc hid
  · intro s w id' w' hc hid hrun
    obtain ⟨⟨⟩, w₁, hreplace, hrun⟩ := reads_bind_eq_ok_iff.1 hrun
    have htrace := trace_of_replaceNode hc hreplace
    obtain ⟨⟨parent, hr⟩, -⟩ := replaceNode_eq_ok hc hreplace
    cases hrun
    exact ⟨.of_trace htrace, hr.stepped hc⟩

end Stepping

section Looks

variable (id : NodeId)

theorem replaceCall_steps {handlers : DispatchTable String CallHandler}
    (hhandlers : ∀ {name handler}, handlers.lookup? name = some handler →
      ∀ site, Preparing (· ∈ site.arguments) (handler site)) :
    Stepping id (fun id' => id') (replaceCall handlers id) := by
  refine .after .tree fun t => .after .version fun version => ?_
  split
  case h_2 => exact .ret rfl
  split
  case h_2 => exact .ret rfl
  next hhandler =>
  refine .after (.ask _) fun site? => ?_
  split
  case h_2 => exact .ret rfl
  next site =>
  refine .after ((hhandlers hhandler site).mono fun _ _ => trivial) fun new? => ?_
  split
  case h_2 => exact .ret rfl
  exact .after (.ask _) fun tags => .after (.ask _) fun kind => .replaceThrough rfl

theorem replaceExecStatement_steps : Stepping id (fun new? => new?.getD id) (replaceExecStatement id) := by
  refine .after (.ask _) fun kind => ?_
  split
  · exact .ret rfl
  refine .after (.ask _) fun call? => ?_
  split
  case h_2 => exact .ret rfl
  refine .after .tree fun t => .after .version fun version => ?_
  split
  case h_2 => exact .ret rfl
  refine .after .version fun version => ?_
  split
  · exact .ret rfl
  refine .after (preparing_isInClass id) fun inClass => ?_
  split
  · exact .ret rfl
  refine .after (.ask _) fun site? => ?_
  split
  case h_2 => exact .ret rfl
  next site =>
  split
  case h_2 => exact .ret rfl
  next args _ =>
  split
  · exact .ret rfl
  refine .after (preparing_execfileSlots site args) fun slots => .after (.newNode (by decide) ..) fun statement => ?_
  exact .replaceThrough rfl

theorem replaceName_steps : Stepping id (fun id' => id') (replaceName id) := by
  refine .after .tree fun t => ?_
  split
  case h_2 => exact .ret rfl
  refine .after (.ask _) fun source => .after (preparing_makeNamed _ source) fun made? => ?_
  split
  case h_2 => exact .ret rfl
  exact .replaceThrough rfl

theorem foldOperation_steps : Stepping id (fun id' => id') (foldOperation id) := by
  refine .after (.ask _) fun kind => ?_
  split
  case h_2 => exact .ret rfl
  split
  case h_2 => exact .ret rfl
  next hhandler => exact .after (preparing_of_foldHandler id hhandler) fun c => .applyComputed c

/-- **A look at a node is a step.** -/
theorem enter_steps (visitor : Visitor) : Stepping id (fun id' => id') (visitor.enter id) := by
  cases visitor with
  | criticalBuiltins =>
    refine (replaceExecStatement_steps id).next fun statement? => ?_
    cases statement? with
    | none => exact replaceCall_steps id fun h site => preparing_critical site h
    | some statement => exact .ret rfl
  | optionalBuiltins => exact replaceCall_steps id fun h site => preparing_optional site h
  | exceptionNames => exact replaceName_steps id
  | constantFolding => exact foldOperation_steps id

/-- **Computing a node and putting the outcome in its place is a step.** -/
theorem compute_steps : Stepping id (fun id' => id') (computeNode id >>= applyComputed id) :=
  .after (preparing_computeNode id) fun c => .applyComputed c

end Looks

end ReplaceM

end Specializer
