import Specializer.Proofs.Imports.Statements
import Specializer.Proofs.Tree.Refusal

/-!
# Temporaries

The temporaries of a module are numbered, and a number is used once. This is a fact about everything that happens to the
state of a module, also in lowerings that fail and in trees that have nothing to do with each other:
`ModuleState.Declared` lists the names of all temporaries that were declared on the way to a state, and each of them has
a number that was counted (`Declared.numbered`). It rests on what every step of a lowering does to the count and to the
variables (`Lowering.Numbers`, `Proceeds`).

Main statement: lowering an import adds the code of the statement and changes nothing else, and the temporary of a
`from` import is new, read once for each name and released once (`lowerImport_additive`).
-/

namespace Specializer

theorem tempName_injective {i j : Nat} (h : tempName i = tempName j) : i = j := by
  have htext : toString i = toString j := (String.append_right_inj _).1 h
  have hdigits := congrArg (fun text => Nat.ofDigitChars 10 text.toList 0) htext
  simpa [Nat.toString_eq_ofList_toDigits] using hdigits

/-- Whether the source is at fault. -/
def CompileError.isFault : CompileError → Bool
  | .malformed _ => true
  | _ => false

/-! ## What is counted -/

/-- Some variables are declared, and none of them is a temporary. -/
def Tree.Declares (t t' : Tree) : Prop :=
  ∃ new, t'.bindings.toList = t.bindings.toList ++ new ∧ ∀ v ∈ new, v.kind ≠ .temp

theorem Tree.declares_of_bindings {t t' : Tree} (h : t'.bindings = t.bindings) : t.Declares t' := ⟨[], by simp [h]⟩

namespace Lowering

variable {s s₁ s' : Lowering}

/-- Every temporary that is declared gets a number that was not counted before. -/
structure Numbers (s s' : Lowering) : Prop where
  count : s.module.tempCount ≤ s'.module.tempCount
  declared : ∃ new, s'.tree.bindings.toList = s.tree.bindings.toList ++ new ∧ ∀ v ∈ new, v.kind = .temp →
    ∃ i, s.module.tempCount < i ∧ i ≤ s'.module.tempCount ∧ v.name = tempName i

namespace Numbers

theorem of_declares (hcount : s'.module.tempCount = s.module.tempCount) (h : s.tree.Declares s'.tree) :
    Numbers s s' := by
  obtain ⟨new, hnew, hkind⟩ := h
  exact ⟨Nat.le_of_eq hcount.symm, new, hnew, fun v hv htemp => absurd htemp (hkind v hv)⟩

theorem refl (s : Lowering) : Numbers s s := .of_declares rfl (Tree.declares_of_bindings rfl)

theorem trans (h : Numbers s s₁) (h' : Numbers s₁ s') : Numbers s s' := by
  obtain ⟨new, hnew, hnumbers⟩ := h.declared
  obtain ⟨new', hnew', hnumbers'⟩ := h'.declared
  refine ⟨Nat.le_trans h.count h'.count, new ++ new', by rw [hnew', hnew, List.append_assoc], fun v hv htemp => ?_⟩
  rcases List.mem_append.1 hv with hv | hv
  · obtain ⟨i, hlow, hhigh, hname⟩ := hnumbers v hv htemp
    exact ⟨i, hlow, Nat.le_trans hhigh h'.count, hname⟩
  · obtain ⟨i, hlow, hhigh, hname⟩ := hnumbers' v hv htemp
    exact ⟨i, Nat.lt_of_le_of_lt h.count hlow, hhigh, hname⟩

end Numbers

end Lowering

namespace Binding

variable {t : Tree} {provider : NodeId} {name : String}

theorem target_ne_temp (scope : Node) (name : String) : (target scope name).2 ≠ .temp := by
  unfold target
  split <;> simp

theorem variableFor_refuses : Refuses t (variableFor provider name) := by
  refine refuses_query (blameless_node provider) fun scope _ => refuses_get ?_
  split
  · exact refuses_of_ok rfl
  · exact declareVariable_refuses provider _ _

end Binding

namespace LoweringM

open Lowering

variable {α β : Type} {faults : Prop} {x : LoweringM α} {f : α → LoweringM β} {provider value : NodeId}
  {source : SourceRef} {name : String} {level : Int64}

/-- A computation that numbers its temporaries, and reports a fault of the source only if it may. -/
def Proceeds (faults : Prop) (x : LoweringM α) : Prop :=
  ∀ locator s, match x locator s with
    | .ok _ s' => s.Numbers s'
    | .error e s' => s.Numbers s' ∧ (e.isFault = true → faults)

namespace Proceeds

theorem ret (a : α) : Proceeds faults (pure a : LoweringM α) := fun _ s => .refl s

theorem bind (hx : Proceeds faults x) (hf : ∀ a, Proceeds faults (f a)) : Proceeds faults (x >>= f) := by
  intro locator s
  have hfirst := hx locator s
  cases hrun : x locator s with
  | ok a s₁ =>
    rw [hrun] at hfirst
    rw [reads_bind_of_ok hrun]
    have hrest := hf a locator s₁
    cases hrun' : f a locator s₁ with
    | ok b s' =>
      rw [hrun'] at hrest
      exact hfirst.trans hrest
    | error e s' =>
      rw [hrun'] at hrest
      exact ⟨hfirst.trans hrest.1, hrest.2⟩
  | error e s₁ =>
    rw [hrun] at hfirst
    rw [reads_bind_of_error hrun]
    exact hfirst

theorem after (hx : Proceeds faults x) (locator : Locator) (s : Lowering) : s.Numbers (s.after locator x) := by
  have hrun := hx locator s
  rw [Lowering.after]
  cases hresult : x locator s with
  | ok a s' =>
    rw [hresult] at hrun
    exact hrun
  | error e s' =>
    rw [hresult] at hrun
    exact hrun.1

theorem mapM {f : α → LoweringM β} {l : List α} (hf : ∀ a, Proceeds faults (f a)) : Proceeds faults (l.mapM f) := by
  induction l with
  | nil => exact ret []
  | cons a l ih =>
    rw [List.mapM_cons]
    exact (hf a).bind fun b => ih.bind fun bs => ret (b :: bs)

theorem get : Proceeds faults (get : LoweringM Lowering) := fun _ s => .refl s

theorem read : Proceeds faults (read : LoweringM Locator) := fun _ s => .refl s

/-- Notes about the module that are no concern of its temporaries. -/
theorem note (change : ModuleState → ModuleState) (h : ∀ m, (change m).tempCount = m.tempCount) :
    Proceeds faults (modify fun s => { s with module := change s.module } : LoweringM Unit) :=
  fun _ s => .of_declares (h s.module) (Tree.declares_of_bindings rfl)

/-- Where faults may be reported, checks are of no concern. -/
theorem of_checks (h : Checks x) : Proceeds True x := by
  intro locator s
  have hafter := h locator s
  rw [Lowering.after] at hafter
  cases hrun : x locator s with
  | ok a s' =>
    rw [hrun] at hafter
    exact hafter ▸ .refl s
  | error e s' =>
    rw [hrun] at hafter
    exact ⟨hafter ▸ .refl s, fun _ => trivial⟩

/-- Operations on the tree fault no source. -/
theorem onTree {action : TreeM α} (h : ∀ t : Tree, t.Declares (t.after action)) : Proceeds faults (onTree action) := by
  intro locator s
  have hdeclares := h s.tree
  rw [Tree.after] at hdeclares
  rw [LoweringM.onTree, onCompile, CompileM.onTree]
  cases hrun : action s.tree with
  | ok a t' =>
    rw [hrun] at hdeclares
    exact .of_declares rfl hdeclares
  | error e t' =>
    rw [hrun] at hdeclares
    exact ⟨.of_declares rfl hdeclares, fun hfault => absurd hfault Bool.false_ne_true⟩

theorem newNode {kind : NodeKind} {payload : Payload} {slots : List Slot} :
    Proceeds faults (LoweringM.onTree (TreeM.newNode kind source payload slots)) := by
  refine onTree fun t => Tree.declares_of_bindings ?_
  cases hrun : TreeM.newNode kind source payload slots t with
  | ok id t' =>
    obtain ⟨-, -, rfl⟩ := Tree.newNode_eq_ok hrun
    rw [Tree.after_of_ok hrun, Tree.bindings_addNode]
  | error e t' => rw [Tree.after_of_error hrun, (newNode_refuses kind source payload slots e t' hrun).1]

theorem variableFor : Proceeds faults (LoweringM.onTree (Binding.variableFor provider name)) := by
  refine onTree fun t => ?_
  cases hrun : Binding.variableFor provider name t with
  | ok v t' =>
    rw [Tree.after_of_ok hrun]
    rcases (Binding.variableFor_eq_ok hrun).2 with rfl | ⟨scope, -, rfl⟩
    · exact Tree.declares_of_bindings rfl
    · have hkind : (Binding.declared scope provider name).kind ≠ .temp := Binding.target_ne_temp scope name
      exact ⟨[Binding.declared scope provider name], by simp, by simpa using hkind⟩
  | error e t' =>
    rw [Tree.after_of_error hrun, (Binding.variableFor_refuses e t' hrun).1]
    exact Tree.declares_of_bindings rfl

/-- The number of a new temporary is counted first. -/
theorem declareTemp : Proceeds faults (LoweringM.declareTemp provider) := by
  intro locator s
  cases hrun : LoweringM.declareTemp provider locator s with
  | ok temp s' =>
    obtain ⟨-, hmodule, htree⟩ := declareTemp_eq_ok hrun
    refine ⟨by simp [hmodule], [_], by rw [htree, Array.toList_push], fun v hv _ => ?_⟩
    refine ⟨s.module.tempCount + 1, Nat.lt_succ_self _, by simp [hmodule], ?_⟩
    rw [List.mem_singleton.1 hv]
    rfl
  | error e s' =>
    rcases reads_bind_eq_error_iff.1 hrun with hname | ⟨name, s₁, hname, hdeclare⟩
    · cases hname
    · cases hname
      obtain ⟨e', t', hrefused, rfl, rfl⟩ := onTree_eq_error_iff.1 hdeclare
      refine ⟨⟨Nat.le_succ _, [], ?_, by simp⟩, nofun⟩
      rw [(declareVariable_refuses provider _ _ _ _ hrefused).1, List.append_nil]

end Proceeds

/-! ## Statements -/

theorem proceeds_bind : Proceeds faults (LoweringM.bind provider name value source) :=
  Proceeds.variableFor.bind fun _ => .newNode

theorem proceeds_makeSequence (statements : List NodeId) : Proceeds faults (makeSequence statements source) := by
  unfold makeSequence
  split
  · exact .ret _
  · exact .newNode

theorem proceeds_makeAttributeChain (names : List String) :
    Proceeds faults (makeAttributeChain source value names) := by
  induction names generalizing value with
  | nil => exact .ret value
  | cons name names ih => exact Proceeds.newNode.bind fun _ => ih

theorem proceeds_lowerModule (a : ImportAlias) : Proceeds faults (lowerModule provider source level a) := by
  refine Proceeds.newNode.bind fun imported => ?_
  cases a.asName with
  | none => exact proceeds_bind
  | some asName => exact (proceeds_makeAttributeChain _).bind fun _ => proceeds_bind

theorem proceeds_lowerModules (aliases : List ImportAlias) : Proceeds faults (lowerModules provider aliases source) :=
  Proceeds.get.bind fun _ => (Proceeds.mapM proceeds_lowerModule).bind proceeds_makeSequence

theorem proceeds_lowerSharedName (temp : VariableId) (a : ImportAlias) :
    Proceeds faults (lowerSharedName provider temp level source a) :=
  Proceeds.newNode.bind fun _ => Proceeds.newNode.bind fun _ => proceeds_bind

theorem proceeds_lowerNames (imported : NodeId) (aliases : List ImportAlias) :
    Proceeds faults (lowerNames provider imported aliases level source) := by
  by_cases hseveral : aliases.length ≠ 1
  · rw [lowerNames_of_several hseveral]
    refine Proceeds.declareTemp.bind fun temp => Proceeds.newNode.bind fun store => ?_
    refine (Proceeds.mapM (proceeds_lowerSharedName temp)).bind fun bindings => ?_
    exact Proceeds.newNode.bind fun release => proceeds_makeSequence _
  · obtain ⟨a, rfl⟩ := List.length_eq_one_iff.1 (not_not.1 hseveral)
    exact Proceeds.newNode.bind fun _ => proceeds_bind

theorem proceeds_lowerFrom_names {module : String} {dots : UInt64} (aliases : List ImportAlias) :
    Proceeds faults (lowerFrom provider module (.names aliases) dots source) :=
  Proceeds.get.bind fun _ => Proceeds.newNode.bind fun imported => proceeds_lowerNames imported aliases

theorem proceeds_lowerFrom {module : String} {dots : UInt64} (names : ImportedNames) :
    Proceeds True (lowerFrom provider module names dots source) := by
  cases names with
  | names aliases => exact proceeds_lowerFrom_names aliases
  | star =>
    intro locator s
    rw [lowerFrom_star]
    exact ((Proceeds.of_checks checks_allowStar).bind fun _ => Proceeds.newNode.bind fun _ => .newNode) locator s

theorem proceeds_enableFeatures (aliases : List ImportAlias) : Proceeds True (enableFeatures source aliases) := by
  induction aliases with
  | nil => exact .ret ()
  | cons a aliases ih =>
    rw [enableFeatures]
    split
    · exact (Proceeds.note (fun m => { m with future := m.future.union _ }) fun _ => rfl).bind fun _ => ih
    · exact .of_checks (.reject _ source)
    · exact .of_checks (.reject _ source)

theorem Proceeds.makeName {locator : Locator} {version : Version} {module : ModuleName} :
    Proceeds faults (onCompile (HardImport.makeName locator version module name source)) := by
  rw [HardImport.makeName, HardImport.locate]
  by_cases hfound : (locator.locate module none 0).2.isFound = true
  · rw [if_pos hfound]
    exact .newNode
  · rw [if_neg hfound]
    exact fun _ s => ⟨.refl s, nofun⟩

theorem proceeds_lowerFeature (a : ImportAlias) : Proceeds faults (lowerFeature provider source a) :=
  Proceeds.get.bind fun _ => Proceeds.read.bind fun _ => Proceeds.makeName.bind fun _ => proceeds_bind

/-- Refuses a future import that comes too late. -/
def requireEarly (provider : NodeId) (source : SourceRef) : LoweringM Unit := do
  let early ← if (← get).module.statementsSeen then pure false else isModule provider
  unless early do reject "from __future__ imports must occur at the beginning of the file" source

theorem lowerFuture_eq (names : ImportedNames) : lowerFuture provider names source = (do
    requireEarly provider source
    match names with
    | .star => reject "future feature * is not defined" source
    | .names aliases =>
      enableFeatures source aliases
      makeSequence (← aliases.mapM (lowerFeature provider source)) source) := by
  rw [lowerFuture.eq_def, requireEarly]
  simp only [bind_assoc]
  refine bind_congr fun s => ?_
  split
  · rfl
  · rw [bind_assoc]
    refine bind_congr fun early => ?_
    cases early <;> rfl

theorem checks_requireEarly : Checks (requireEarly provider source) := by
  have hlast (early : Bool) : Checks (if early = true then pure () else
      reject "from __future__ imports must occur at the beginning of the file" source : LoweringM Unit) := by
    cases early with
    | true => exact .ret ()
    | false => exact .reject _ source
  refine Checks.get.bind fun s => ?_
  split
  · exact hlast false
  · exact checks_isModule.bind hlast

theorem proceeds_lowerFeatures (aliases : List ImportAlias) :
    Proceeds faults (do makeSequence (← aliases.mapM (lowerFeature provider source)) source) :=
  (Proceeds.mapM proceeds_lowerFeature).bind proceeds_makeSequence

theorem proceeds_lowerFuture (names : ImportedNames) : Proceeds True (lowerFuture provider names source) := by
  rw [lowerFuture_eq]
  refine (Proceeds.of_checks checks_requireEarly).bind fun _ => ?_
  cases names with
  | star => exact .of_checks (.reject _ source)
  | names aliases => exact (proceeds_enableFeatures aliases).bind fun _ => proceeds_lowerFeatures aliases

theorem proceeds_noteStatement :
    Proceeds faults (modify fun s => { s with module := s.module.noteStatement } : LoweringM Unit) :=
  .note ModuleState.noteStatement fun _ => rfl

theorem proceeds_lowerImport (statement : ImportStatement) : Proceeds True (lowerImport provider statement source) := by
  cases statement with
  | modules aliases => exact proceeds_noteStatement.bind fun _ => proceeds_lowerModules aliases
  | fromModule module names dots =>
    rw [lowerImport]
    split
    · exact proceeds_lowerFuture names
    · exact proceeds_noteStatement.bind fun _ => proceeds_lowerFrom names

end LoweringM

/-! ## The temporaries of a module -/

/-- The names of the temporaries that were declared since. -/
def Tree.temporariesSince (t t' : Tree) : List String :=
  ((t'.bindings.toList.drop t.bindings.size).filter (·.kind = .temp)).map (·.name)

/-- The temporaries that were declared on the way to a state of a module. The trees do not matter, and lowerings may
fail. -/
inductive ModuleState.Declared : ModuleState → List String → Prop where
  | start (name : ModuleName) (file source : String) (version : Version) :
    Declared (.ofSource name file source version) []
  | noted {m : ModuleState} {temps : List String} (h : Declared m temps) : Declared m.noteStatement temps
  | lowered {m : ModuleState} {temps : List String} (h : Declared m temps) (t : Tree) (locator : Locator)
    (provider : NodeId) (statement : ImportStatement) (source : SourceRef) {s' : Lowering}
    (hafter : Lowering.after ⟨m, t⟩ locator (LoweringM.lowerImport provider statement source) = s') :
    Declared s'.module (temps ++ t.temporariesSince s'.tree)

/-- **Every temporary has a number that was counted.** -/
theorem ModuleState.Declared.numbered {m : ModuleState} {temps : List String} (h : m.Declared temps) :
    ∀ name ∈ temps, ∃ i ≤ m.tempCount, name = tempName i := by
  induction h with
  | start => simp
  | noted _ ih => exact ih
  | @lowered m temps _ t locator provider statement source s' hafter ih =>
    obtain ⟨hcount, new, hnew, htemps⟩ := hafter ▸ (LoweringM.proceeds_lowerImport statement).after locator ⟨m, t⟩
    intro name hname
    rcases List.mem_append.1 hname with hname | hname
    · obtain ⟨i, hi, rfl⟩ := ih name hname
      exact ⟨i, Nat.le_trans hi hcount, rfl⟩
    · have hdrop : s'.tree.bindings.toList.drop t.bindings.size = new := by
        rw [hnew, ← Array.length_toList, List.drop_left]
      rw [Tree.temporariesSince, hdrop] at hname
      obtain ⟨v, hv, rfl⟩ := List.mem_map.1 hname
      obtain ⟨hmem, htemp⟩ := List.mem_filter.1 hv
      obtain ⟨i, -, hi, hnumber⟩ := htemps v hmem (of_decide_eq_true htemp)
      exact ⟨i, hi, hnumber⟩

theorem ModuleState.Declared.nextTemp_notMem {m : ModuleState} {temps : List String} (h : m.Declared temps) :
    m.nextTemp ∉ temps := by
  intro hmem
  obtain ⟨i, hi, hname⟩ := h.numbered _ hmem
  exact absurd hi (Nat.not_le.2 (tempName_injective hname ▸ Nat.lt_succ_self _))

/-! ## Counting nodes -/

/-- Whether a node is the release of a variable. -/
def Node.isReleaseOf (n : Node) (v : VariableId) : Bool :=
  n.kind == .statementReleaseVariable && n.referent? == some v

/-- A node of which only kind and payload matter. -/
def Node.ofLabel (label : NodeKind × Payload) : Node :=
  { kind := label.1, source := default, payload := label.2, slots := [] }

/-- What the walk over a subtree finds can be counted on its labels. -/
theorem Tree.countP_label? {t : Tree} {ids : List NodeId} {labels : List (NodeKind × Payload)}
    (h : ids.map t.label? = labels.map some) {test : Node → Bool}
    (htest : ∀ n, test n = test (.ofLabel (n.kind, n.payload))) :
    ids.countP (fun x => (t.get? x).any test) = labels.countP fun label => test (.ofLabel label) := by
  have hlabel : (fun x => (t.get? x).any test) = (Option.any fun label => test (.ofLabel label)) ∘ t.label? := by
    funext x
    cases hx : t.get? x with
    | none => simp [label?, hx]
    | some n => simp [label?, hx, htest n]
  rw [hlabel, ← List.countP_map, h, List.countP_map]
  rfl

section Shared

variable {t : Tree} {provider : NodeId} {level : Int64} {temp : VariableId} {aliases : List ImportAlias}
  {codes : List Code}

/-- The codes of shared names differ only in the names. -/
theorem countP_labels_bound {p : NodeKind × Payload → Bool}
    (bound : List.Forall₂ (fun a => Binds t provider a.target (.importName a.name level (.read temp))) aliases codes)
    (hassign : ∀ v, p (.statementAssignmentVariable, .var v) = false)
    (himport : ∀ name, p (.importName, .importName name level) = false) :
    (codes.flatMap Code.labels).countP p = aliases.length * (p (.variableRef, .var temp)).toNat := by
  induction bound with
  | nil => simp
  | @cons a code aliases codes hcode _ ih =>
    obtain ⟨v, -, rfl⟩ := hcode
    rw [List.flatMap_cons, List.countP_append, ih, List.length_cons, Nat.succ_mul, Nat.add_comm]
    cases hread : p (.variableRef, .var temp) <;>
      simp [Code.assign, Code.importName, Code.read, hassign, himport, hread]

theorem countP_shared {p : NodeKind × Payload → Bool} (spec : ImportSpec)
    (bound : List.Forall₂ (fun a => Binds t provider a.target (.importName a.name level (.read temp))) aliases codes)
    (hsequence : p (.statementsSequence, .none) = false)
    (hassign : ∀ v, p (.statementAssignmentVariable, .var v) = false)
    (himport : ∀ name, p (.importName, .importName name level) = false) :
    (Code.sequence (.assign temp (.importModule spec) :: (codes ++ [.release temp]))).labels.countP p =
      (p (.importModule, .moduleImport spec)).toNat + aliases.length * (p (.variableRef, .var temp)).toNat +
        (p (.statementReleaseVariable, .var temp)).toNat := by
  rw [Code.labels_shared, List.countP_append, List.countP_append, countP_labels_bound bound hassign himport]
  cases hmodule : p (.importModule, .moduleImport spec) <;>
    cases hrelease : p (.statementReleaseVariable, .var temp) <;>
      simp [hsequence, hassign, hmodule, hrelease]

/-- **A shared module is imported once, and its temporary is read once for each name and released once.** -/
theorem Lowers.counts {statement : ImportStatement} {code : Code}
    (h : Lowers level t provider statement (some temp) code) {ids : List NodeId}
    (hlabels : ids.map t.label? = code.labels.map some) :
    ids.countP (fun x => (t.get? x).any (·.kind == .importModule)) = 1 ∧
      (∀ module aliases dots, statement = .fromModule module (.names aliases) dots →
        ids.countP (fun x => (t.get? x).any (·.isReferenceTo temp)) = aliases.length) ∧
      ids.countP (fun x => (t.get? x).any (·.isReleaseOf temp)) = 1 := by
  cases h with
  | names several bound =>
    refine ⟨?_, ?_, ?_⟩
    · rw [Tree.countP_label? hlabels fun _ => rfl, countP_shared _ bound rfl (fun _ => rfl) fun _ => rfl]
      rfl
    · rintro _ _ _ ⟨⟩
      rw [Tree.countP_label? hlabels fun _ => rfl, countP_shared _ bound rfl (fun _ => rfl) fun _ => rfl]
      simp [Node.ofLabel, Node.isReferenceTo, Node.referent?]
    · rw [Tree.countP_label? hlabels fun _ => rfl, countP_shared _ bound rfl (fun _ => rfl) fun _ => rfl]
      have hread : (NodeKind.variableRef == .statementReleaseVariable) = false := rfl
      simp [Node.ofLabel, Node.isReleaseOf, Node.referent?, hread]

end Shared

/-- **Import lowering is additive.** An import statement that enables no features, lowered in a tree with the invariant,
leaves root, nodes and variables as they were; the statement it returns is detached, the new nodes are those below it,
and they say what the statement says. A `from` import of no or of several names declares a temporary for it, with a name
that was given to no temporary of the module before; the module is imported once, and the temporary is read once for
each name and released once. -/
theorem LoweringM.lowerImport_additive {t t' : Tree} {m m' : ModuleState} {provider id : NodeId}
    {statement : ImportStatement} {source : SourceRef} {locator : Locator} (hc : t.Consistent)
    (hordinary : ¬ statement.IsFuture)
    (hrun : lowerImport provider statement source locator ⟨m, t⟩ = .ok id ⟨m', t'⟩) :
    (t'.root = t.root ∧ (∀ x, x.index < t.nodes.size → t'.get? x = t.get? x) ∧
      t.bindings.toList <+: t'.bindings.toList) ∧ t'.Consistent ∧ t'.Loose id ∧
    ∃ ids temp? code, t'.walk id = .ok ids ∧ ids.Nodup ∧
      (∀ x, x ∈ ids ↔ t.nodes.size ≤ x.index ∧ x.index < t'.nodes.size) ∧
      t'.Spells source id code ∧ Lowers (statement.level m) t' provider statement temp? code ∧
      ∀ temp ∈ temp?, t.Temporary t' provider m.nextTemp temp ∧ (∀ temps, m.Declared temps → m.nextTemp ∉ temps) ∧
        ids.countP (fun x => (t'.get? x).any (·.kind == .importModule)) = 1 ∧
        (∀ module aliases dots, statement = .fromModule module (.names aliases) dots →
          ids.countP (fun x => (t'.get? x).any (·.isReferenceTo temp)) = aliases.length) ∧
        ids.countP (fun x => (t'.get? x).any (·.isReleaseOf temp)) = 1 := by
  obtain ⟨temp?, code, hlowers, htemp, hputs⟩ := lowerImport_builds hordinary hrun
  have hbuilding := hputs.built
  obtain ⟨ids, hwalk, hnodup, hnew, hlabels⟩ := hbuilding.walk hc
  refine ⟨⟨hbuilding.root, hbuilding.old, hbuilding.bindings⟩, hbuilding.consistent hc,
    hbuilding.loose hc (List.mem_singleton_self _), ids, temp?, code, hwalk, hnodup, hnew,
    (hbuilding.top _ (List.mem_singleton_self _)).2.2, hlowers, ?_⟩
  rintro temp ⟨⟩
  exact ⟨htemp temp rfl, fun temps h => h.nextTemp_notMem, hlowers.counts hlabels⟩

/-- A module with a class in it. -/
def Tree.classInModule : Tree :=
  .applyAll {} [
    .newNode .module default (.scope "m") [.one none],
    .newNode .classBody default (.scope "C") [.one none],
    .setRoot ⟨0⟩]

/-- The module, once `from os import path, sep` was lowered in it. -/
def Lowering.sharedModule : Lowering :=
  .after ⟨.ofSource ⟨"p.m"⟩ "m.py" "" .python3, .classInModule⟩ (.ofTable [])
    (LoweringM.lowerImport ⟨0⟩ (.fromModule "os" (.names [⟨"path", none⟩, ⟨"sep", none⟩]) 0) default)

/-- The class then imports two names, one of them under a private name: `from .q import x, y as __z`. -/
theorem LoweringM.lowerImport_additive_sharedModule :
    Lowering.sharedModule.tree.Consistent ∧ Lowering.sharedModule.module.Declared ["tmp_import_from_1"] ∧
    ∃ m' t' ids temp x z, lowerImport ⟨1⟩ (.fromModule "q" (.names [⟨"x", none⟩, ⟨"y", some "__z"⟩]) 1) default
        (.ofTable []) Lowering.sharedModule = .ok ⟨21⟩ ⟨m', t'⟩ ∧
      t'.Loose ⟨21⟩ ∧ t'.walk ⟨21⟩ = .ok ids ∧ ids.countP (fun id => (t'.get? id).any (·.isReferenceTo temp)) = 2 ∧
      t'.bindings[temp.index]? = some { name := "tmp_import_from_2", owner := ⟨1⟩, kind := .temp } ∧
      Binding.bound? t' ⟨1⟩ "x" = some x ∧ Binding.bound? t' ⟨1⟩ "__z" = some z ∧
      t'.Spells default ⟨21⟩ (.sequence [.assign temp (.importModule ⟨⟨"q"⟩, ["x", "y"], 1⟩),
        .assign x (.importName "x" 1 (.read temp)), .assign z (.importName "y" 1 (.read temp)), .release temp]) := by
  have hbuilt : Tree.classInModule.Built := ⟨_, rfl⟩
  have hfirst : succeedsWith (fun _ _ => true) (lowerImport ⟨0⟩
      (.fromModule "os" (.names [⟨"path", none⟩, ⟨"sep", none⟩]) 0) default (.ofTable [])
      ⟨.ofSource ⟨"p.m"⟩ "m.py" "" .python3, .classInModule⟩) = true := by decide +kernel
  obtain ⟨id, s, hrun, -⟩ := succeedsWith_iff.1 hfirst
  have hshared : Lowering.sharedModule = s := by rw [Lowering.sharedModule, Lowering.after, hrun]
  have hc : Lowering.sharedModule.tree.Consistent := by
    rw [hshared]
    exact (lowerImport_additive hbuilt.consistent (by simp [ImportStatement.IsFuture]) hrun).2.1
  have hdeclared : Lowering.sharedModule.module.Declared ["tmp_import_from_1"] := by
    have htemps : Tree.classInModule.temporariesSince Lowering.sharedModule.tree = ["tmp_import_from_1"] := by
      decide +kernel
    exact htemps ▸ .lowered (.start ⟨"p.m"⟩ "m.py" "" .python3) .classInModule (.ofTable []) ⟨0⟩ _ default rfl
  have hsecond : succeedsWith (fun id _ => id == ⟨21⟩) (lowerImport ⟨1⟩
      (.fromModule "q" (.names [⟨"x", none⟩, ⟨"y", some "__z"⟩]) 1) default (.ofTable [])
      Lowering.sharedModule) = true := by decide +kernel
  have hname : Lowering.sharedModule.module.nextTemp = "tmp_import_from_2" := by decide +kernel
  -- nothing else matters about the module
  clear hfirst hrun hshared
  generalize Lowering.sharedModule = shared at hc hdeclared hsecond hname ⊢
  obtain ⟨id', ⟨m', t'⟩, hrun', hid'⟩ := succeedsWith_iff.1 hsecond
  obtain rfl : id' = ⟨21⟩ := by simpa using hid'
  obtain ⟨-, -, hloose, ids, temp?, code, hwalk, -, -, hspells, hlowers, htemp⟩ :=
    lowerImport_additive hc (by simp [ImportStatement.IsFuture]) hrun'
  cases hlowers with
  | names several bound =>
    rcases bound with _ | ⟨⟨x, hx, rfl⟩, _ | ⟨⟨z, hz, rfl⟩, _ | _⟩⟩
    obtain ⟨htemporary, -, -, hreads, -⟩ := htemp _ rfl
    exact ⟨hc, hdeclared, m', t', ids, _, x, z, hrun', hloose, hwalk, hreads _ _ _ rfl, hname ▸ htemporary.declared, hx,
      hz, hspells⟩

end Specializer
