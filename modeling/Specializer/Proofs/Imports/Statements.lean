import Specializer.Imports.Lowering
import Specializer.Proofs.Tree.Construction

/-!
# What import statements become

`Lowers` says which code an import statement becomes: one statement for each name it binds, in the order of the names,
and around the names of a `from` import, if they are not exactly one, a temporary that holds the module. A name is bound
to the variable that `Binding.bound?` finds for it in the tree afterwards.

Each step of a lowering is described by the parts that it takes off the pile and puts there (`Lowering.Puts`), from
single nodes (`newNode_builds`) over loops (`mapM_builds`) up to statements (`lowerModules_builds`, `lowerFrom_builds`).
-/

namespace Specializer

/-! ## Code -/

namespace Code

/-- The import of a module. -/
def importModule (spec : ImportSpec) : Code := .node .importModule (.moduleImport spec) []

/-- The import of a name from a module. -/
def importName (name : String) (level : Int64) (module : Code) : Code :=
  .node .importName (.importName name level) [module]

/-- The lookup of an attribute. -/
def attributeLookup (value : Code) (name : String) : Code := .node .attributeLookup (.name name) [value]

/-- A reference to a variable. -/
def read (v : VariableId) : Code := .node .variableRef (.var v) []

/-- An assignment to a variable. -/
def assign (v : VariableId) (value : Code) : Code := .node .statementAssignmentVariable (.var v) [value]

/-- The release of a variable. -/
def release (v : VariableId) : Code := .node .statementReleaseVariable (.var v) []

/-- The import of all names of a module. -/
def importStar (module : Code) : Code := .node .statementImportStar .none [module]

/-- A sequence of statements. -/
def sequence (statements : List Code) : Code := .node .statementsSequence .none statements

/-- A single statement stays as it is, any other number becomes a sequence. -/
def statements : List Code → Code
  | [statement] => statement
  | statements => sequence statements

theorem statements_of_several {codes : List Code} (h : codes.length ≠ 1) : statements codes = sequence codes := by
  match codes with
  | [] => rfl
  | [_] => exact absurd rfl h
  | _ :: _ :: _ => rfl

theorem labels_shared (temp : VariableId) (spec : ImportSpec) (codes : List Code) :
    (sequence (.assign temp (.importModule spec) :: (codes ++ [.release temp]))).labels =
      [(.statementsSequence, .none), (.statementAssignmentVariable, .var temp), (.importModule, .moduleImport spec)] ++
        codes.flatMap labels ++ [(.statementReleaseVariable, .var temp)] := by
  simp [sequence, assign, importModule, release]

end Code

namespace ImportAlias

/-- The name that an alias of an `import` statement binds: the module at the top unless it says otherwise. -/
def moduleTarget (a : ImportAlias) : String := a.asName.getD (ModuleName.mk a.name).topLevel

/-- What an alias of an `import` statement is bound to: the module at the top, or the module itself, which is an
attribute of an attribute of it. -/
def moduleValue (a : ImportAlias) (level : Int64) : Code :=
  let top := Code.importModule ⟨⟨a.name⟩, [], level⟩
  match a.asName with
  | none => top
  | some _ => ((ModuleName.mk a.name).components.drop 1).foldl Code.attributeLookup top

end ImportAlias

/-- The names that a `from` import lists. -/
def ImportedNames.list : ImportedNames → List String
  | .names aliases => aliases.map (·.name)
  | .star => ["*"]

/-- The level at which the modules of a statement are imported: the number of its dots, if there are any. -/
def ImportStatement.level (m : ModuleState) : ImportStatement → Int64
  | .modules _ => m.defaultLevel
  | .fromModule _ _ dots => if dots = 0 then m.defaultLevel else dots.toInt64

/-- A statement that enables features. -/
def ImportStatement.IsFuture (statement : ImportStatement) : Prop :=
  ∃ names, statement = .fromModule "__future__" names 0

/-- The name of a temporary by its number. -/
def tempName (number : Nat) : String := s!"tmp_import_from_{number}"

/-- The name of the temporary that is declared next. -/
def ModuleState.nextTemp (m : ModuleState) : String := tempName (m.tempCount + 1)

/-! ## Variables -/

namespace Binding

variable {t t' : Tree} {provider : NodeId} {name : String} {v : VariableId}

/-- The variable that is declared for a name of a scope. -/
def declared (scope : Node) (provider : NodeId) (name : String) : Variable :=
  { name := (target scope name).1, owner := provider, kind := (target scope name).2 }

/-- Whether a variable is the one that a scope binds a name to. -/
def isBound (scope : Node) (provider : NodeId) (name : String) (v : Variable) : Bool :=
  v.owner == provider && v.name == (target scope name).1 && v.kind == (target scope name).2

/-- The variable a scope binds a name to, if there is one yet. -/
def bound? (t : Tree) (provider : NodeId) (name : String) : Option VariableId :=
  (t.get? provider).bind fun scope =>
    (t.variableList.find? fun entry => isBound scope provider name entry.2).map (·.1)

theorem variableList_push (t : Tree) (v : Variable) :
    ({ t with bindings := t.bindings.push v } : Tree).variableList = t.variableList ++ [(⟨t.bindings.size⟩, v)] := by
  simp [Tree.variableList, List.zipIdx_append]

theorem variableList_prefix (h : t.bindings.toList <+: t'.bindings.toList) : t.variableList <+: t'.variableList := by
  obtain ⟨new, hnew⟩ := h
  rw [Tree.variableList, Tree.variableList, ← hnew, List.zipIdx_append, List.map_append]
  exact List.prefix_append _ _

/-- Variables that are declared later do not matter. -/
theorem bound?_of_enlarges (h : t.Enlarges t') (hv : bound? t provider name = some v) :
    bound? t' provider name = some v := by
  obtain ⟨scope, hscope, hfind⟩ := Option.bind_eq_some_iff.1 hv
  obtain ⟨p, hscope'⟩ := h.nodes hscope
  obtain ⟨entry, hentry, rfl⟩ := Option.map_eq_some_iff.1 hfind
  obtain ⟨new, hnew⟩ := variableList_prefix h.bindings
  refine Option.bind_eq_some_iff.2 ⟨_, hscope', Option.map_eq_some_iff.2 ⟨entry, ?_, rfl⟩⟩
  change t'.variableList.find? (fun entry => isBound scope provider name entry.2) = some entry
  rw [← hnew, List.find?_append, hentry]
  rfl

/-- The variable is there already, or is the one that is declared. -/
theorem variableFor_eq_ok (h : variableFor provider name t = .ok v t') : bound? t' provider name = some v ∧
    (t' = t ∨ ∃ scope, t.get? provider = some scope ∧
      t' = { t with bindings := t.bindings.push (declared scope provider name) }) := by
  change (TreeM.ofExcept (t.node provider) >>= _) t = _ at h
  cases hscope : t.get? provider with
  | none =>
    rw [Tree.run_check_error (Tree.node_eq_error_iff.2 ⟨hscope, rfl⟩)] at h
    cases h
  | some scope =>
    rw [Tree.run_check_ok (Tree.node_of_get? hscope)] at h
    change (get >>= _ : TreeM VariableId) t = _ at h
    rw [Tree.run_get_bind] at h
    generalize hfound : List.find? _ _ = found at h
    have hfind : t.variableList.find? (fun entry => isBound scope provider name entry.2) = found := hfound
    cases found with
    | some entry =>
      cases h
      exact ⟨by simp [bound?, hscope, hfind], .inl rfl⟩
    | none =>
      change TreeM.declareVariable provider (target scope name).1 (target scope name).2 t = _ at h
      rw [TreeM.declareVariable, Tree.run_get_bind, Tree.run_check_ok (Tree.node_of_get? hscope)] at h
      cases h
      refine ⟨?_, .inr ⟨scope, rfl, rfl⟩⟩
      change ((t.get? provider).bind _) = _
      rw [hscope, Option.bind_some, variableList_push, List.find?_append, hfind]
      simp [isBound]

end Binding

/-! ## The code of a statement -/

/-- The statement that binds a name of a scope to a value. -/
def Binds (t : Tree) (provider : NodeId) (name : String) (value code : Code) : Prop :=
  ∃ v, Binding.bound? t provider name = some v ∧ code = .assign v value

theorem Binds.of_enlarges {t t' : Tree} {provider : NodeId} {name : String} {value code : Code} (h : t.Enlarges t')
    (hb : Binds t provider name value code) : Binds t' provider name value code := by
  obtain ⟨v, hv, rfl⟩ := hb
  exact ⟨v, Binding.bound?_of_enlarges h hv, rfl⟩

/-- The code that an import statement of a scope becomes, with the temporary that it uses. The tree is the one
afterwards, where the names are bound. -/
inductive Lowers (level : Int64) (t : Tree) (provider : NodeId) :
    ImportStatement → Option VariableId → Code → Prop where
  | modules {aliases : List ImportAlias} {codes : List Code}
    (bound : List.Forall₂ (fun a => Binds t provider a.moduleTarget (a.moduleValue level)) aliases codes) :
    Lowers level t provider (.modules aliases) none (.statements codes)
  | star {module : String} {dots : UInt64} :
    Lowers level t provider (.fromModule module .star dots) none (.importStar (.importModule ⟨⟨module⟩, ["*"], level⟩))
  | name {module : String} {a : ImportAlias} {dots : UInt64} {code : Code}
    (bound : Binds t provider a.target (.importName a.name level (.importModule ⟨⟨module⟩, [a.name], level⟩)) code) :
    Lowers level t provider (.fromModule module (.names [a]) dots) none code
  | names {module : String} {aliases : List ImportAlias} {dots : UInt64} {temp : VariableId} {codes : List Code}
    (several : aliases.length ≠ 1)
    (bound : List.Forall₂ (fun a => Binds t provider a.target (.importName a.name level (.read temp))) aliases codes) :
    Lowers level t provider (.fromModule module (.names aliases) dots) (some temp)
      (.sequence (.assign temp (.importModule ⟨⟨module⟩, aliases.map (·.name), level⟩) :: (codes ++ [.release temp])))

/-- A temporary of a scope that was declared since. -/
structure Tree.Temporary (t t' : Tree) (provider : NodeId) (name : String) (v : VariableId) : Prop where
  new : t.bindings.size ≤ v.index
  declared : t'.bindings[v.index]? = some { name, owner := provider, kind := .temp }

theorem Tree.Temporary.of_enlarges {t t₁ t' : Tree} {provider : NodeId} {name : String} {v : VariableId}
    (h : t.Enlarges t₁) (hv : t₁.Temporary t' provider name v) : t.Temporary t' provider name v := by
  refine ⟨Nat.le_trans ?_ hv.new, hv.declared⟩
  simpa using h.bindings.length_le

/-! ## Steps of a lowering -/

/-- The state that a computation leaves behind, whether or not it succeeds. -/
def Lowering.after {α : Type} (s : Lowering) (locator : Locator) (action : LoweringM α) : Lowering :=
  match action locator s with
  | .ok _ s' | .error _ s' => s'

/-- A step that builds code and leaves the state of the module alone. -/
structure Lowering.Puts (source : SourceRef) (s s' : Lowering) (taken given : List (NodeId × Code)) : Prop where
  module : s'.module = s.module
  tree : Tree.Puts source s.tree s'.tree taken given

namespace Lowering.Puts

variable {source : SourceRef} {s s₁ s' : Lowering} {taken between given : List (NodeId × Code)}

theorem refl (source : SourceRef) (s : Lowering) (parts : List (NodeId × Code)) : Puts source s s parts parts :=
  ⟨rfl, .refl source s.tree parts⟩

theorem trans (h : Puts source s s₁ taken between) (h' : Puts source s₁ s' between given) :
    Puts source s s' taken given :=
  ⟨h'.module.trans h.module, h.tree.trans h'.tree⟩

theorem push (h : Puts source s s' [] given) (below : List (NodeId × Code)) :
    Puts source s s' below (below ++ given) :=
  ⟨h.module, h.tree.push below⟩

end Lowering.Puts

namespace LoweringM

open Lowering

variable {α : Type} {locator : Locator} {s s' : Lowering} {source : SourceRef} {provider value id : NodeId}
  {name : String} {level : Int64} {code : Code} {taken : List (NodeId × Code)}

theorem onTree_eq_ok_iff {action : TreeM α} {a : α} :
    onTree action locator s = .ok a s' ↔ ∃ t', action s.tree = .ok a t' ∧ s' = { s with tree := t' } := by
  rw [onTree, onCompile, CompileM.onTree]
  cases action s.tree with
  | ok b t' =>
    constructor
    · intro h
      cases h
      exact ⟨t', rfl, rfl⟩
    · rintro ⟨_, h, rfl⟩
      cases h
      rfl
  | error e t' => exact ⟨nofun, fun ⟨_, h, _⟩ => nomatch h⟩

theorem onTree_eq_error_iff {action : TreeM α} {e : CompileError} :
    onTree action locator s = .error e s' ↔
      ∃ e' t', action s.tree = .error e' t' ∧ e = .tree e' ∧ s' = { s with tree := t' } := by
  rw [onTree, onCompile, CompileM.onTree]
  cases action s.tree with
  | ok b t' => exact ⟨nofun, fun ⟨_, _, h, _⟩ => nomatch h⟩
  | error e' t' =>
    constructor
    · intro h
      cases h
      exact ⟨e', t', rfl, rfl, rfl⟩
    · rintro ⟨_, _, h, rfl, rfl⟩
      cases h
      rfl

theorem newNode_builds {kind : NodeKind} {payload : Payload} {slots : List Slot}
    (hslots : slots.flatMap Slot.ids = taken.map (·.1))
    (h : onTree (TreeM.newNode kind source payload slots) locator s = .ok id s') :
    Puts source s s' taken [(id, .node kind payload (taken.map (·.2)))] := by
  obtain ⟨t', hrun, rfl⟩ := onTree_eq_ok_iff.1 h
  exact ⟨rfl, .newNode hslots hrun⟩

theorem makeImportModule_builds {module : ModuleName} {names : List String}
    (h : makeImportModule module names level source locator s = .ok id s') :
    Puts source s s' [] [(id, .importModule ⟨module, names, level⟩)] :=
  newNode_builds rfl h

theorem makeImportName_builds (h : makeImportName value name level source locator s = .ok id s') (code : Code) :
    Puts source s s' [(value, code)] [(id, .importName name level code)] :=
  newNode_builds rfl h

theorem importStar_builds
    (h : onTree (TreeM.newNode .statementImportStar source .none [.filled value]) locator s = .ok id s') (code : Code) :
    Puts source s s' [(value, code)] [(id, .importStar code)] :=
  newNode_builds rfl h

theorem makeAttributeChain_builds {names : List String}
    (h : makeAttributeChain source value names locator s = .ok id s') (code : Code) :
    Puts source s s' [(value, code)] [(id, names.foldl Code.attributeLookup code)] := by
  induction names generalizing value code s with
  | nil =>
    cases h
    exact .refl source _ _
  | cons name names ih =>
    obtain ⟨inner, s₁, hinner, hrest⟩ := reads_bind_eq_ok_iff.1 h
    have hstep : Puts source s s₁ [(value, code)] [(inner, code.attributeLookup name)] := newNode_builds rfl hinner
    exact hstep.trans (ih hrest _)

theorem bind_builds (h : bind provider name value source locator s = .ok id s') (code : Code) :
    ∃ statement, Binds s'.tree provider name code statement ∧
      Puts source s s' [(value, code)] [(id, statement)] := by
  obtain ⟨v, s₁, hv, hassign⟩ := reads_bind_eq_ok_iff.1 h
  obtain ⟨t₁, hrun, rfl⟩ := onTree_eq_ok_iff.1 hv
  obtain ⟨hbound, hcases⟩ := Binding.variableFor_eq_ok hrun
  have hdeclared : Puts source s { s with tree := t₁ } [(value, code)] [(value, code)] := by
    rcases hcases with rfl | ⟨scope, -, rfl⟩
    · exact .refl source s _
    · exact ⟨rfl, .bound source s.tree _⟩
  have hassigned : Puts source { s with tree := t₁ } s' [(value, code)] [(id, .assign v code)] :=
    newNode_builds rfl hassign
  exact ⟨_, ⟨v, Binding.bound?_of_enlarges hassigned.tree.enlarges hbound, rfl⟩, hdeclared.trans hassigned⟩

theorem makeSequence_builds {statements : List NodeId} {parts : List (NodeId × Code)}
    (hparts : parts.map (·.1) = statements) (h : makeSequence statements source locator s = .ok id s') :
    Puts source s s' parts [(id, .statements (parts.map (·.2)))] := by
  subst hparts
  match parts with
  | [part] =>
    cases h
    exact .refl source _ _
  | [] => exact newNode_builds rfl h
  | first :: second :: rest =>
    have hslots : [Slot.many ((first :: second :: rest).map (·.1))].flatMap Slot.ids =
        (first :: second :: rest).map (·.1) := by simp [Slot.ids]
    exact newNode_builds hslots h

/-- A loop puts one part after the other on the pile. -/
theorem mapM_builds (source : SourceRef) {f : ImportAlias → LoweringM NodeId} {P : Tree → ImportAlias → Code → Prop}
    (hstays : ∀ {t t' a code}, t.Enlarges t' → P t a code → P t' a code)
    (hf : ∀ {a s s' id}, f a locator s = .ok id s' → ∃ code, P s'.tree a code ∧ Puts source s s' [] [(id, code)])
    {aliases : List ImportAlias} {ids : List NodeId} (h : aliases.mapM f locator s = .ok ids s') :
    ∃ parts : List (NodeId × Code), parts.map (·.1) = ids ∧ List.Forall₂ (P s'.tree) aliases (parts.map (·.2)) ∧
      Puts source s s' [] parts := by
  induction aliases generalizing s ids with
  | nil =>
    cases h
    exact ⟨[], rfl, .nil, .refl source _ _⟩
  | cons a aliases ih =>
    rw [List.mapM_cons] at h
    obtain ⟨id, s₁, hid, h⟩ := reads_bind_eq_ok_iff.1 h
    obtain ⟨rest, s₂, hrest, h⟩ := reads_bind_eq_ok_iff.1 h
    cases h
    obtain ⟨code, hcode, hfirst⟩ := hf hid
    obtain ⟨parts, rfl, hparts, hbuilds⟩ := ih hrest
    exact ⟨(id, code) :: parts, rfl, .cons (hstays hbuilds.tree.enlarges hcode) hparts,
      hfirst.trans (hbuilds.push [(id, code)])⟩

/-! ## Checks -/

/-- A computation that leaves everything as it was, whether or not it succeeds. -/
def Checks (x : LoweringM α) : Prop := ∀ locator (s : Lowering), s.after locator x = s

namespace Checks

variable {β : Type} {x : LoweringM α} {f : α → LoweringM β}

theorem eq_of_ok (hx : Checks x) {a : α} (h : x locator s = .ok a s') : s' = s := by
  have hafter := hx locator s
  rwa [after, h] at hafter

theorem eq_of_error (hx : Checks x) {e : CompileError} (h : x locator s = .error e s') : s' = s := by
  have hafter := hx locator s
  rwa [after, h] at hafter

theorem ret (a : α) : Checks (pure a : LoweringM α) := fun _ _ => rfl

theorem get : Checks (get : LoweringM Lowering) := fun _ _ => rfl

theorem reject (reason : String) (source : SourceRef) : Checks (LoweringM.reject reason source : LoweringM α) :=
  fun _ _ => rfl

theorem bind (hx : Checks x) (hf : ∀ a, Checks (f a)) : Checks (x >>= f) := by
  intro locator s
  cases hrun : x locator s with
  | ok a s₁ =>
    rw [after, reads_bind_of_ok hrun, hx.eq_of_ok hrun]
    exact hf a locator s
  | error e s₁ =>
    rw [after, reads_bind_of_error hrun]
    exact hx.eq_of_error hrun

theorem query (question : Tree → Except TreeError α) : Checks (onTree (TreeM.query question)) := by
  intro locator s
  have hquery : TreeM.query question s.tree = TreeM.ofExcept (question s.tree) s.tree := rfl
  rw [after, onTree, onCompile, CompileM.onTree, hquery]
  cases question s.tree <;> rfl

end Checks

theorem checks_isModule : Checks (isModule provider) := (Checks.query _).bind fun _ => .ret _

/-! ## Statements -/

theorem lowerModule_builds {a : ImportAlias} (h : lowerModule provider source level a locator s = .ok id s') :
    ∃ code, Binds s'.tree provider a.moduleTarget (a.moduleValue level) code ∧ Puts source s s' [] [(id, code)] := by
  obtain ⟨imported, s₁, himported, h⟩ := reads_bind_eq_ok_iff.1 h
  have hfirst := makeImportModule_builds himported
  cases has : a.asName with
  | none =>
    simp only [has] at h
    obtain ⟨code, hbinds, hbuilds⟩ := bind_builds h (.importModule ⟨⟨a.name⟩, [], level⟩)
    exact ⟨code, by simpa [ImportAlias.moduleTarget, ImportAlias.moduleValue, has] using hbinds, hfirst.trans hbuilds⟩
  | some asName =>
    simp only [has] at h
    obtain ⟨value, s₂, hvalue, h⟩ := reads_bind_eq_ok_iff.1 h
    have hchain := makeAttributeChain_builds hvalue (.importModule ⟨⟨a.name⟩, [], level⟩)
    obtain ⟨code, hbinds, hbuilds⟩ := bind_builds h _
    exact ⟨code, by simpa [ImportAlias.moduleTarget, ImportAlias.moduleValue, has] using hbinds,
      hfirst.trans (hchain.trans hbuilds)⟩

theorem lowerModules_builds {aliases : List ImportAlias}
    (h : lowerModules provider aliases source locator s = .ok id s') :
    ∃ code, Lowers s.module.defaultLevel s'.tree provider (.modules aliases) none code ∧
      Puts source s s' [] [(id, code)] := by
  obtain ⟨_, _, hget, h⟩ := reads_bind_eq_ok_iff.1 h
  cases hget
  obtain ⟨ids, s₁, hids, hsequence⟩ := reads_bind_eq_ok_iff.1 h
  obtain ⟨parts, hparts, hbound, hbuilds⟩ := mapM_builds source
    (P := fun t a => Binds t provider a.moduleTarget (a.moduleValue s.module.defaultLevel))
    (fun h => .of_enlarges h) (fun h => lowerModule_builds h) hids
  have hlast := makeSequence_builds hparts hsequence
  exact ⟨_, .modules (hbound.imp fun _ _ => .of_enlarges hlast.tree.enlarges), hbuilds.trans hlast⟩

theorem lowerSharedName_builds {temp : VariableId} {a : ImportAlias}
    (h : lowerSharedName provider temp level source a locator s = .ok id s') :
    ∃ code, Binds s'.tree provider a.target (.importName a.name level (.read temp)) code ∧
      Puts source s s' [] [(id, code)] := by
  obtain ⟨module, s₁, hmodule, h⟩ := reads_bind_eq_ok_iff.1 h
  obtain ⟨value, s₂, hvalue, h⟩ := reads_bind_eq_ok_iff.1 h
  have hread : Puts source s s₁ [] [(module, .read temp)] := newNode_builds rfl hmodule
  obtain ⟨code, hbinds, hbuilds⟩ := bind_builds h (.importName a.name level (.read temp))
  exact ⟨code, hbinds, hread.trans ((makeImportName_builds hvalue _).trans hbuilds)⟩

/-- Declares the temporary of a scope that is next. -/
def declareTemp (provider : NodeId) : LoweringM VariableId := do
  onTree (TreeM.declareVariable provider (← freshTempName) .temp)

theorem lowerNames_of_several {imported : NodeId} {aliases : List ImportAlias} (h : aliases.length ≠ 1) :
    lowerNames provider imported aliases level source = (do
      let temp ← declareTemp provider
      let store ← onTree (TreeM.makeAssignment temp imported source)
      let bindings ← aliases.mapM (lowerSharedName provider temp level source)
      let release ← onTree (TreeM.makeRelease temp source)
      makeSequence (store :: bindings ++ [release]) source) := by
  rw [declareTemp, bind_assoc]
  match aliases with
  | [] => rfl
  | [_] => exact absurd rfl h
  | _ :: _ :: _ => rfl

theorem declareTemp_eq_ok {temp : VariableId} (h : declareTemp provider locator s = .ok temp s') :
    temp = ⟨s.tree.bindings.size⟩ ∧ s'.module = { s.module with tempCount := s.module.tempCount + 1 } ∧
      s'.tree = { s.tree with bindings := s.tree.bindings.push ⟨s.module.nextTemp, provider, .temp, false, 0⟩ } := by
  obtain ⟨name, s₁, hname, h⟩ := reads_bind_eq_ok_iff.1 h
  cases hname
  obtain ⟨t₂, hrun, rfl⟩ := onTree_eq_ok_iff.1 h
  rw [TreeM.declareVariable, Tree.run_get_bind] at hrun
  cases hscope : s.tree.get? provider with
  | none =>
    rw [Tree.run_check_error (Tree.node_eq_error_iff.2 ⟨hscope, rfl⟩)] at hrun
    cases hrun
  | some scope =>
    rw [Tree.run_check_ok (Tree.node_of_get? hscope)] at hrun
    cases hrun
    exact ⟨rfl, rfl, rfl⟩

/-- Several names share a temporary, which is released after the last of them. -/
theorem lowerNames_builds {imported : NodeId} {aliases : List ImportAlias} (hseveral : aliases.length ≠ 1)
    (h : lowerNames provider imported aliases level source locator s = .ok id s') (code : Code) :
    ∃ temp codes, s.tree.Temporary s'.tree provider s.module.nextTemp temp ∧
      List.Forall₂ (fun a => Binds s'.tree provider a.target (.importName a.name level (.read temp))) aliases codes ∧
      Tree.Puts source s.tree s'.tree [(imported, code)]
        [(id, .sequence (.assign temp code :: (codes ++ [.release temp])))] := by
  rw [lowerNames_of_several hseveral] at h
  obtain ⟨temp, s₁, htemp, h⟩ := reads_bind_eq_ok_iff.1 h
  obtain ⟨store, s₂, hstore, h⟩ := reads_bind_eq_ok_iff.1 h
  obtain ⟨ids, s₃, hids, h⟩ := reads_bind_eq_ok_iff.1 h
  obtain ⟨release, s₄, hrelease, hsequence⟩ := reads_bind_eq_ok_iff.1 h
  obtain ⟨hindex, -, htree⟩ := declareTemp_eq_ok htemp
  have hdeclared : Tree.Puts source s.tree s₁.tree [(imported, code)] [(imported, code)] := by
    rw [htree]
    exact .bound source s.tree _
  have hstored : Puts source s₁ s₂ [(imported, code)] [(store, .assign temp code)] := newNode_builds rfl hstore
  obtain ⟨parts, rfl, hbound, hparts⟩ := mapM_builds source
    (P := fun t a => Binds t provider a.target (.importName a.name level (.read temp)))
    (fun h => .of_enlarges h) (fun h => lowerSharedName_builds h) hids
  have hreleased : Puts source s₃ s₄ [] [(release, .release temp)] := newNode_builds rfl hrelease
  have hstatements : ((store, Code.assign temp code) :: (parts ++ [(release, .release temp)])).map (·.1) =
      store :: parts.map (·.1) ++ [release] := by simp
  have hlast := makeSequence_builds hstatements hsequence
  have hrest : Puts source s₁ s' [(imported, code)] _ :=
    hstored.trans ((hparts.push [_]).trans ((hreleased.push (_ :: parts)).trans hlast))
  rw [Code.statements_of_several (by simp)] at hrest
  refine ⟨temp, parts.map (·.2), ⟨by simp [hindex], ?_⟩, ?_, ?_⟩
  · obtain ⟨new, hnew⟩ := hrest.tree.enlarges.bindings
    rw [← Array.getElem?_toList, ← hnew, htree, hindex]
    simp
  · exact hbound.imp fun _ _ => .of_enlarges (hreleased.tree.enlarges.trans hlast.tree.enlarges)
  · simpa using hdeclared.trans hrest.tree

/-- Refuses a star where it is not allowed. -/
def allowStar (provider : NodeId) (source : SourceRef) : LoweringM Unit := do
  if (← get).module.version.isPython3 then
    unless ← isModule provider do reject "import * only allowed at module level" source

theorem lowerFrom_star {module : String} {dots : UInt64} :
    lowerFrom provider module .star dots source locator s = (do
      allowStar provider source
      let imported ← makeImportModule ⟨module⟩ ["*"]
        (ImportStatement.level s.module (.fromModule module .star dots)) source
      onTree (TreeM.newNode .statementImportStar source .none [.filled imported])) locator s := by
  have hget : (get : LoweringM Lowering) locator s = .ok s s := rfl
  rw [lowerFrom, allowStar, bind_assoc, reads_bind_of_ok hget, reads_bind_of_ok hget]
  by_cases hv : s.module.version.isPython3 = true
  · simp only [hv, if_true, bind_assoc]
    refine congrFun (reads_bind_congr rfl fun inModule => ?_) s
    cases inModule <;> rfl
  · simp only [hv]
    rfl

theorem checks_allowStar : Checks (allowStar provider source) := by
  refine Checks.get.bind fun s => ?_
  split
  · refine checks_isModule.bind fun inModule => ?_
    cases inModule with
    | true => exact .ret ()
    | false => exact .reject _ source
  · exact .ret ()

/-- A `from` import begins with the import of the module. -/
theorem lowerFrom_eq_ok {module : String} {names : ImportedNames} {dots : UInt64}
    (h : lowerFrom provider module names dots source locator s = .ok id s') :
    ∃ imported s₁, makeImportModule ⟨module⟩ names.list (ImportStatement.level s.module (.fromModule module names dots))
        source locator s = .ok imported s₁ ∧
      match names with
      | .star => onTree (TreeM.newNode .statementImportStar source .none [.filled imported]) locator s₁ = .ok id s'
      | .names aliases => lowerNames provider imported aliases
          (ImportStatement.level s.module (.fromModule module names dots)) source locator s₁ = .ok id s' := by
  cases names with
  | star =>
    rw [lowerFrom_star] at h
    obtain ⟨_, s₀, hallowed, h⟩ := reads_bind_eq_ok_iff.1 h
    obtain rfl := checks_allowStar.eq_of_ok hallowed
    exact reads_bind_eq_ok_iff.1 h
  | names aliases =>
    obtain ⟨_, _, hget, h⟩ := reads_bind_eq_ok_iff.1 h
    cases hget
    exact (reads_bind_eq_ok_iff (x := makeImportModule _ _ _ _)).1 h

theorem lowerFrom_builds {module : String} {names : ImportedNames} {dots : UInt64}
    (h : lowerFrom provider module names dots source locator s = .ok id s') :
    ∃ temp? code, Lowers (ImportStatement.level s.module (.fromModule module names dots)) s'.tree provider
        (.fromModule module names dots) temp? code ∧
      (∀ temp ∈ temp?, s.tree.Temporary s'.tree provider s.module.nextTemp temp) ∧
      Tree.Puts source s.tree s'.tree [] [(id, code)] := by
  obtain ⟨imported, s₁, himported, h⟩ := lowerFrom_eq_ok h
  have hfirst := makeImportModule_builds himported
  cases names with
  | star =>
    exact ⟨none, _, .star, by simp, (hfirst.trans (importStar_builds h _)).tree⟩
  | names aliases =>
    by_cases hseveral : aliases.length ≠ 1
    · obtain ⟨temp, codes, htemp, hbound, hputs⟩ := lowerNames_builds hseveral h _
      refine ⟨some temp, _, .names hseveral hbound, ?_, hfirst.tree.trans hputs⟩
      rintro _ ⟨⟩
      rw [hfirst.module] at htemp
      exact htemp.of_enlarges hfirst.tree.enlarges
    · obtain ⟨a, rfl⟩ := List.length_eq_one_iff.1 (not_not.1 hseveral)
      obtain ⟨value, s₂, hvalue, h⟩ := reads_bind_eq_ok_iff.1 h
      obtain ⟨code, hbinds, hbuilds⟩ := bind_builds h _
      exact ⟨none, code, .name hbinds, by simp, (hfirst.trans ((makeImportName_builds hvalue _).trans hbuilds)).tree⟩

/-- **An import statement that enables no features becomes the code it says**, and nothing else is built. -/
theorem lowerImport_builds {statement : ImportStatement} (hfuture : ¬ statement.IsFuture)
    (h : lowerImport provider statement source locator s = .ok id s') :
    ∃ temp? code, Lowers (statement.level s.module) s'.tree provider statement temp? code ∧
      (∀ temp ∈ temp?, s.tree.Temporary s'.tree provider s.module.nextTemp temp) ∧
      Tree.Puts source s.tree s'.tree [] [(id, code)] := by
  cases statement with
  | modules aliases =>
    obtain ⟨code, hlowers, hbuilds⟩ := lowerModules_builds (s := { s with module := s.module.noteStatement }) h
    exact ⟨none, code, hlowers, by simp, hbuilds.tree⟩
  | fromModule module names dots =>
    have hordinary : ¬ (module = "__future__" ∧ dots = 0) := by
      rintro ⟨rfl, rfl⟩
      exact hfuture ⟨names, rfl⟩
    rw [lowerImport, if_neg hordinary] at h
    exact lowerFrom_builds (s := { s with module := s.module.noteStatement }) h

end LoweringM

end Specializer
