import Specializer.FixedPoint
import Specializer.Proofs.Replacement.StaticImport

/-!
# Nodes that are left alone

A look at a node that announces nothing leaves it alone, and would do so again: a visitor on every tree with the same
plain tree on which the node is no import that can be made static (`enterNode_quiet`), a computation on every tree that
knows the same about the nodes within (`compute_quiet`). The one thing a computation may do without saying so is to note
that an import runs no code.
-/

namespace Specializer

theorem Tree.get?_of_plain {t t' : Tree} {id : NodeId} {n : Node} (h : t'.plain = t.plain) (hn : t.get? id = some n) :
    ∃ n', t'.get? id = some n' ∧ n'.plain = n.plain := by
  have hplain : t'.plain.get? id = t.plain.get? id := by rw [h]
  rw [get?_plain, get?_plain, hn, Option.map_some, Option.map_eq_some_iff] at hplain
  exact hplain

namespace ReplaceM

open Specializer.Tree

variable {α : Type} {s : Settings} {t : Tree} {w w' : Workspace} {id id' : NodeId} {n : Node}

/-! ## What is computed -/

theorem applyComputed_unchanged {c : Computed} (h : c.change = none) : applyComputed id c = pure id := by
  rw [applyComputed, h]

theorem busy_applyComputed {c : Computed} (h : c.change ≠ none) : Busy (fun _ => True) (applyComputed id c) := by
  obtain ⟨⟨tags, description⟩, hchange⟩ := Option.ne_none_iff_exists'.1 h
  rw [applyComputed, hchange]
  refine .after (.ask _) fun source => ?_
  split
  · exact .first (.signal ..) fun _ => .ret _
  · exact .after (tame_replaceNode ..) fun _ => .first (.signal ..) fun _ => .ret _

theorem tame_applyComputed (c : Computed) : Tame (applyComputed id c) := by
  by_cases h : c.change = none
  · rw [applyComputed_unchanged h]
    exact .ret id
  · exact (busy_applyComputed h).tame

theorem cautious_foldBuiltin (id : NodeId) (signature : Signature) :
    Cautious (fun c => c.change = none) (foldBuiltin id signature) := by
  unfold foldBuiltin
  split
  · exact .ret _
  refine .andThen (.ask fun t => t.constantArguments_plain id) fun arguments? => ?_
  split
  · exact .ret _
  refine .andThen (.ask fun t => t.source_plain id) fun source => .andThen .version fun version => ?_
  split
  · exact (Busy.after (.onTree (.newNode ..)) fun _ => .ret (by simp [Computed.changed])).cautious
  · exact (Busy.after (.recordExit ..) fun _ => .after (.onTree (.newNode ..)) fun _ =>
      .ret (by simp [Computed.changed])).cautious
  · exact .ret _

theorem cautious_foldByKey (key : String) (id : NodeId) : Cautious (fun c => c.change = none) (foldByKey key id) := by
  unfold foldByKey
  split
  · exact cautious_foldBuiltin ..
  · exact .ret _

theorem cautious_foldType (id : NodeId) : Cautious (fun c => c.change = none) (foldType id) := by
  refine .andThen (.ask fun t => t.child_plain id "value") fun value? => ?_
  refine .look (fun t => by simp only [constant?_plain']) fun t => ?_
  split
  · split
    · exact .ret _
    refine .andThen .version fun version => .andThen .version fun version' => ?_
    split
    · exact .ret _
    · exact (Busy.after (.ask _) fun _ => .after (.onTree (.newNode ..)) fun _ =>
        .ret (by simp [Computed.changed])).cautious
  · exact .ret _

/-! ## Folding -/

/-- At nodes of a kind, a handler rests again once it has left a node alone, unless the node is an import that can be
made static. -/
structure Recurs (kind : NodeKind) (handler : FoldHandler) : Prop where
  tame : ∀ id, Tame (handler id)
  rests : ∀ ⦃s w id n c w'⦄, w.tree.Consistent → w.tree.get? id = some n → n.kind = kind →
    handler id s w = .ok c w' → c.change = none → w'.changes.size ≤ w.changes.size →
    w.tree.isStaticImport s.options.version id = false ∧ ∀ t, t.Consistent → t.plain = w.tree.plain →
      t.isStaticImport s.options.version id = false → Rests s t (handler id) c false

theorem isStaticImport_of_kind {version : Version} (hn : t.get? id = some n) (hkind : n.kind ≠ .builtinImport) :
    t.isStaticImport version id = false := by
  have himport : t.kind id ≠ .ok .builtinImport := by
    rw [kind_ok hn]
    simpa using hkind
  simp [isStaticImport, himport]

theorem Recurs.of_cautious {kind : NodeKind} {handler : FoldHandler} (hkind : kind ≠ .builtinImport)
    (h : ∀ id, Cautious (fun c => c.change = none) (handler id)) : Recurs kind handler := by
  refine ⟨fun id => (h id).tame, fun s w id n c w' _ hn hk hrun hquiet hsize => ?_⟩
  exact ⟨isStaticImport_of_kind hn (hk ▸ hkind), fun t _ ht _ => (h id).rests hrun hquiet hsize t ht⟩

theorem tame_hasSideEffects (id : NodeId) (slot : String) : Tame (hasSideEffects id slot) := by
  refine .bind (.ask _) fun operand? => ?_
  split
  · exact .ret _
  · exact .ask _

theorem tame_importOperand (id : NodeId) (slot : String) : Tame (importOperand id slot) := by
  refine .bind (.ask _) fun operand? => ?_
  split
  · exact .ret _
  · refine .bind .tree fun t => ?_
    split <;> exact .ret _

theorem tame_foldImport (id : NodeId) : Tame (foldImport id) := by
  refine .bind (tame_hasSideEffects id "globals") fun globals => ?_
  split
  · exact .ret _
  refine .bind (tame_hasSideEffects id "locals") fun locals => ?_
  split
  · exact .ret _
  refine .bind (tame_importOperand id "name") fun name => ?_
  split
  · refine .bind (tame_importOperand id "fromlist") fun fromlist => ?_
    split
    · refine .bind .version fun version => .bind (tame_importOperand id "level") fun level => ?_
      split
      · exact .bind (.ask _) fun _ => .bind (.onTree (.newNode ..)) fun _ => .ret _
      · exact .ret _
    · exact .ret _
  · exact .ret _

theorem recurs_foldImport : Recurs .builtinImport foldImport := by
  refine ⟨tame_foldImport, fun s w id n c w' hc hn hkind hrun hquiet _ => ?_⟩
  rcases foldImport_cases (s := s) hc hn hkind with ⟨hnot, hleft⟩ | ⟨-, hmade⟩
  · cases hrun.symm.trans hleft
    refine ⟨hnot, fun t htc ht htnot trace changes => ?_⟩
    obtain ⟨n', hn', hplain⟩ := get?_of_plain ht hn
    have hkind' : n'.kind = .builtinImport := (congrArg Node.kind hplain).trans hkind
    rcases foldImport_cases (s := s) (w := ⟨t, trace, changes⟩) htc hn' hkind' with ⟨-, hleft'⟩ | ⟨hstatic, -⟩
    · exact ⟨trace, by simp, hleft'⟩
    · rw [show t.isStaticImport s.options.version id = true from hstatic] at htnot
      cases htnot
  · have hchanged := hmade c w' hrun
    simp [Computed.isChanged, hquiet] at hchanged

/-- What computing a range does. -/
def computeRange (id : NodeId) (source : SourceRef) : ReplaceM Computed := do
  let result ← foldBuiltin id Signature.range
  unless result.isChanged do recordExit .baseException source
  return result

theorem computeNode_of_range (hn : w.tree.get? id = some n) (hkind : n.kind = .builtinRange) :
    computeNode id s w = computeRange id n.source s w := by
  rw [computeNode, reads_bind_of_ok (ask_ok (node_of_get? hn)), hkind]
  rfl

theorem cautious_computeRange (id : NodeId) (source : SourceRef) :
    Cautious (fun c => c.change = none) (computeRange id source) := by
  refine (cautious_foldBuiltin id Signature.range).bind (fun c hquiet => ?_) fun c hchanged => ?_
  · split
    · exact .ret c
    · exact .andThen (.recordExit ..) fun _ => .ret c
  · split
    · exact .ret hchanged
    · exact .after (.recordExit ..) fun _ => .ret hchanged

theorem tame_computeImportModule (id : NodeId) (spec : ImportSpec) (source : SourceRef) :
    Tame (computeImportModule id spec source) := by
  refine .bind .read fun settings => .bind .tree fun t => ?_
  dsimp only
  split
  · exact .bind (.recordExit ..) fun _ => .ret _
  split
  · exact .bind (.onCompile (.bind (.locate ..) fun _ => .onTree (.newNode ..))) fun _ => .ret _
  split
  · refine .bind (.ask _) fun capabilities => ?_
    split
    · exact .ret _
    · exact .bind (.onTree (.operation (.setCapabilities id .quietImport) uncounted_setCapabilities)) fun _ => .ret _
  · exact .bind (.recordExit ..) fun _ => .ret _

/-- The import of a name stays where it is, unless it is announced that it became a hard one. -/
theorem cautious_computeImportName (id : NodeId) (name : String) (source : SourceRef) :
    Cautious (fun c => c.change = none) (computeImportName id name source) := by
  refine .andThen (.ask fun t => t.child_plain id "module") fun child? => ?_
  split
  on_goal 2 => refine .andThen (.ask fun t => t.payload_plain _) fun payload => ?_
  all_goals
    refine .andThen (.ret _) fun payload? => ?_
    dsimp only
    split
    · exact .andThen (.recordExit ..) fun _ => .ret _
    · refine Busy.cautious (.after .read fun _ => .after .version fun _ => ?_)
      refine .after (.onCompile (.bind (.locate ..) fun _ => .onTree (.newNode ..))) fun _ => .after (.ask _) fun _ => ?_
      split
      · exact .after (.recordExit ..) fun _ => .ret (by simp [Computed.changed])
      · exact .ret (by simp [Computed.changed])

theorem tame_computeNode (id : NodeId) : Tame (computeNode id) := by
  refine .bind (.ask _) fun n => ?_
  split
  · split
    · exact .bind (.recordExit ..) fun _ => .bind .abort fun _ => .ret _
    · exact .bind .abort fun _ => .ret _
  · exact .onTree (.computeSideEffects id)
  · exact .bind (.recordExit ..) fun _ => .ret _
  · exact (cautious_computeRange id n.source).tame
  · split
    · exact tame_computeImportModule ..
    · exact .ret _
  · split
    · exact (cautious_computeImportName ..).tame
    · exact .ret _
  · exact .bind (.recordExit ..) fun _ => .ret _
  · split
    · exact .bind (.recordExit ..) fun _ => .ret _
    · exact .ret _

theorem recurs_computeNode : Recurs .builtinRange computeNode := by
  refine ⟨tame_computeNode, fun s w id n c w' _ hn hkind hrun hquiet hsize => ?_⟩
  rw [computeNode_of_range hn hkind] at hrun
  refine ⟨isStaticImport_of_kind hn (by simp [hkind]), fun t _ ht _ trace changes => ?_⟩
  obtain ⟨n', hn', hplain⟩ := get?_of_plain ht hn
  have hkind' : n'.kind = .builtinRange := (congrArg Node.kind hplain).trans hkind
  have hsource : n'.source = n.source := (congrArg Node.source hplain :)
  rw [computeNode_of_range (w := ⟨t, trace, changes⟩) hn' hkind', hsource]
  exact (cautious_computeRange id n.source).rests hrun hquiet hsize t ht trace changes

theorem recurs_of_lookup? {kind : NodeKind} {key : String} {handler : FoldHandler} (hkey : kind.builtinKey? = some key)
    (h : foldHandlers.lookup? key = some handler) : Recurs kind handler := by
  have hrange : ∀ kind ∈ NodeKind.all, kind.builtinKey? = some "range" → kind = .builtinRange := by decide
  have himport : ∀ kind ∈ NodeKind.all, kind.builtinKey? = some "import" → kind = .builtinImport := by decide
  have hother : ∀ key ∈ ["chr", "ord", "bin", "oct", "hex", "len", "tuple", "list", "dict", "float", "str", "bool", "int",
      "long"], NodeKind.builtinImport.builtinKey? ≠ some key := by decide
  refine DispatchTable.of_lookup? (t := foldHandlers)
    (p := fun e => ∀ kind : NodeKind, kind.builtinKey? = some e.1 → Recurs kind e.2)
    (DispatchTable.forall_ofList ?_) (fun _ hf => nomatch (DispatchTable.fallback_ofList _).symm.trans hf) h kind hkey
  rw [List.forall_mem_append, List.forall_mem_map]
  refine ⟨?_, fun key hmem kind hk => .of_cautious (fun hkind => ?_) (cautious_foldByKey key)⟩
  · simp only [List.forall_mem_cons]
    refine ⟨fun kind hk => .of_cautious ?_ cautious_foldType, fun kind hk => ?_, fun kind hk => ?_, by simp⟩
    · rintro rfl
      exact absurd hk (by decide)
    · exact hrange kind kind.mem_all hk ▸ recurs_computeNode
    · exact himport kind kind.mem_all hk ▸ recurs_foldImport
  · subst hkind
    exact hother key hmem hk

/-- The handler of operations of a kind. -/
def foldHandler? (kind : NodeKind) : Option FoldHandler := kind.builtinKey?.bind foldHandlers.lookup?

theorem recurs_of_foldHandler? {kind : NodeKind} {handler : FoldHandler} (h : foldHandler? kind = some handler) :
    Recurs kind handler := by
  obtain ⟨key, hkey, hhandler⟩ := Option.bind_eq_some_iff.1 h
  exact recurs_of_lookup? hkey hhandler

theorem foldOperation_eq (id : NodeId) : foldOperation id = ask (·.kind id) >>= fun kind => match foldHandler? kind with
    | some handler => handler id >>= applyComputed id
    | none => pure id := by
  refine congrArg (ask (·.kind id) >>= ·) (funext fun kind => ?_)
  rw [foldHandler?]
  cases kind.builtinKey? with
  | none => rfl
  | some key =>
    simp only [Option.bind_some]
    cases foldHandlers.lookup? key <;> rfl

theorem tame_foldOperation (id : NodeId) : Tame (foldOperation id) := by
  rw [foldOperation_eq]
  refine .bind (.ask _) fun kind => ?_
  split
  · next handler hhandler => exact .bind ((recurs_of_foldHandler? hhandler).tame id) tame_applyComputed
  · exact .ret id

/-- Folding that announces nothing leaves the node alone, and again on every tree with the same plain tree on which the
node is no import that can be made static. -/
theorem foldOperation_quiet (hc : w.tree.Consistent) (hrun : foldOperation id s w = .ok id' w')
    (hsize : w'.changes.size ≤ w.changes.size) :
    id' = id ∧ w.tree.isStaticImport s.options.version id = false ∧ ∀ t, t.Consistent → t.plain = w.tree.plain →
      t.isStaticImport s.options.version id = false → Rests s t (foldOperation id) id false := by
  rw [foldOperation_eq] at hrun ⊢
  obtain ⟨kind, hkind, hrun⟩ := ask_bind_eq_ok_iff.1 hrun
  obtain ⟨n, hn, rfl⟩ := kind_eq_ok_iff.1 hkind
  have again {t : Tree} (ht : t.plain = w.tree.plain) : t.kind id = .ok n.kind :=
    (eq_of_plain (·.kind id) (kind_plain · id) ht).trans hkind
  cases hhandler : foldHandler? n.kind with
  | none =>
    simp only [hhandler] at hrun
    cases hrun
    have hnot : n.kind ≠ .builtinImport := fun himport => by
      have hsome : (foldHandler? .builtinImport).isSome = true := by decide
      rw [himport] at hhandler
      rw [hhandler] at hsome
      cases hsome
    refine ⟨rfl, isStaticImport_of_kind hn hnot, fun t _ ht _ => (Rests.ask (again ht)).bind ?_⟩
    simp only [hhandler]
    exact .ret
  | some handler =>
    simp only [hhandler] at hrun
    have hrecurs := recurs_of_foldHandler? hhandler
    obtain ⟨c, w₁, hfold, happly⟩ := reads_bind_eq_ok_iff.1 hrun
    have hgrows := (hrecurs.tame id hfold).2
    by_cases hquiet : c.change = none
    · rw [applyComputed_unchanged hquiet] at happly
      cases happly
      obtain ⟨hnot, hrests⟩ := hrecurs.rests hc hn rfl hfold hquiet hsize
      refine ⟨rfl, hnot, fun t htc ht htnot => (Rests.ask (again ht)).bind ?_⟩
      simp only [hhandler]
      refine (hrests t htc ht htnot).bind ?_
      rw [applyComputed_unchanged hquiet]
      exact .ret
    · have hmore := (busy_applyComputed hquiet).grows happly trivial
      omega

/-! ## The visitors together -/

/-- The settings do not ask to make a node a static import. -/
def Spares (s : Settings) (t : Tree) (id : NodeId) : Prop :=
  s.options.constantFolding = true → t.isStaticImport s.options.version id = false

/-- A visitor does not ask to make a node a static import. -/
def VisitorSpares (visitor : Visitor) (s : Settings) (t : Tree) (id : NodeId) : Prop :=
  visitor = .constantFolding → t.isStaticImport s.options.version id = false

theorem enter_quiet (visitor : Visitor) (hc : w.tree.Consistent) (hrun : visitor.enter id s w = .ok id' w')
    (hsize : w'.changes.size ≤ w.changes.size) :
    id' = id ∧ VisitorSpares visitor s w.tree id ∧ ∀ t, t.Consistent → t.plain = w.tree.plain →
      VisitorSpares visitor s t id → Rests s t (visitor.enter id) id false := by
  have leaves (hleaves : Leaves id (visitor.enter id)) : id' = id ∧ ∀ t, t.plain = w.tree.plain →
      Rests s t (visitor.enter id) id false := by
    obtain rfl := hleaves.same hrun hsize
    exact ⟨rfl, hleaves.cautious.rests hrun trivial hsize⟩
  cases visitor with
  | criticalBuiltins =>
    obtain ⟨hid, hrests⟩ := leaves (replaceCriticalBuiltin_leaves id)
    exact ⟨hid, nofun, fun t _ ht _ => hrests t ht⟩
  | optionalBuiltins =>
    obtain ⟨hid, hrests⟩ := leaves (replaceOptionalBuiltin_leaves id)
    exact ⟨hid, nofun, fun t _ ht _ => hrests t ht⟩
  | exceptionNames =>
    obtain ⟨hid, hrests⟩ := leaves (replaceName_leaves id)
    exact ⟨hid, nofun, fun t _ ht _ => hrests t ht⟩
  | constantFolding =>
    obtain ⟨hid, hnot, hrests⟩ := foldOperation_quiet hc hrun hsize
    exact ⟨hid, fun _ => hnot, fun t htc ht htnot => hrests t htc ht (htnot rfl)⟩

theorem tame_enter (visitor : Visitor) (id : NodeId) : Tame (visitor.enter id) := by
  cases visitor with
  | criticalBuiltins => exact (replaceCriticalBuiltin_leaves id).cautious.tame
  | optionalBuiltins => exact (replaceOptionalBuiltin_leaves id).cautious.tame
  | exceptionNames => exact (replaceName_leaves id).cautious.tame
  | constantFolding => exact tame_foldOperation id

theorem tame_enterNode (id : NodeId) : Tame (enterNode id) :=
  .bind .read fun _ => .foldlM (fun current visitor => tame_enter visitor current) _ id

theorem foldlM_enter_quiet : ∀ {visitors : List Visitor} {w : Workspace}, w.tree.Consistent →
    visitors.foldlM (fun current visitor => visitor.enter current) id s w = .ok id' w' →
    w'.changes.size ≤ w.changes.size →
    id' = id ∧ (∀ visitor ∈ visitors, VisitorSpares visitor s w.tree id) ∧ ∀ t, t.Consistent → t.plain = w.tree.plain →
      (∀ visitor ∈ visitors, VisitorSpares visitor s t id) →
      Rests s t (visitors.foldlM (fun current visitor => visitor.enter current) id) id false
  | [], w, _, hrun, _ => by
    cases hrun
    exact ⟨rfl, by simp, fun t _ _ _ => .ret⟩
  | visitor :: visitors, w, hc, hrun, hsize => by
    rw [List.foldlM_cons] at hrun ⊢
    obtain ⟨id₁, w₁, h₁, h₂⟩ := reads_bind_eq_ok_iff.1 hrun
    have hgrows₁ := (tame_enter visitor id h₁).2
    have hgrows₂ := (Tame.foldlM (fun current visitor => tame_enter visitor current) visitors id₁ h₂).2
    obtain ⟨hid, hspares, hrests⟩ := enter_quiet visitor hc h₁ (by omega)
    obtain ⟨-, htree, -, -⟩ := (hrests w.tree hc rfl hspares).eq_of_ok h₁
    rw [hid] at h₂
    obtain ⟨hid', hspares', hrests'⟩ := foldlM_enter_quiet (htree ▸ hc) h₂ (by omega)
    rw [htree] at hspares' hrests'
    refine ⟨hid', by simpa using ⟨hspares, hspares'⟩, fun t htc ht hall => ?_⟩
    exact (hrests t htc ht (hall visitor (by simp))).bind (hrests' t htc ht fun v hv => hall v (by simp [hv]))

/-- **A look at a node that announces nothing can be repeated.** -/
theorem enterNode_quiet (hc : w.tree.Consistent) (hrun : enterNode id s w = .ok id' w')
    (hsize : w'.changes.size ≤ w.changes.size) :
    id' = id ∧ Spares s w.tree id ∧ ∀ t, t.Consistent → t.plain = w.tree.plain → Spares s t id →
      Rests s t (enterNode id) id false := by
  have hmem (t : Tree) : (∀ visitor ∈ s.options.visitors, VisitorSpares visitor s t id) ↔ Spares s t id := by
    have hlisted : .constantFolding ∈ s.options.visitors ↔ s.options.constantFolding = true := by simp [Options.visitors]
    constructor
    · exact fun hall hfolding => hall .constantFolding (hlisted.2 hfolding) rfl
    · rintro hspares visitor hvisitor rfl
      exact hspares (hlisted.1 hvisitor)
  have hfold : s.options.visitors.foldlM (fun current visitor => visitor.enter current) id s w = .ok id' w' := hrun
  obtain ⟨rfl, hspares, hrests⟩ := foldlM_enter_quiet hc hfold hsize
  refine ⟨rfl, (hmem w.tree).1 hspares, fun t htc ht htspares trace changes => ?_⟩
  exact hrests t htc ht ((hmem t).2 htspares) trace changes

end ReplaceM

end Specializer
