import Specializer.Proofs.Replacement.Growth
import Specializer.Replacement.Names

/-!
# Looks that replace

A look that gives another node in the place of the one it was asked for has read a variable, built the other node, put it
in its place, and counted the variable again. What it has found and built is said by `replaceCall_eq_ok` for a call,
`replaceExecStatement_eq_ok` for an execution of a file as a statement, and `replaceName_eq_ok` for a name.
-/

namespace Specializer.ReplaceM

open Specializer.Tree

variable {α : Type} {s : Settings} {w w' : Workspace} {id id' old new : NodeId} {v : VariableId} {source : SourceRef}

/-! ## Putting a node in a place -/

/-- The node `new` was put in the place of `old`; other than that, only variables have changed. -/
def Supplants (s : Settings) (old new : NodeId) (w w' : Workspace) : Prop :=
  ∃ w₁, replaceNode old new s w = .ok () w₁ ∧ w'.tree.nodes = w₁.tree.nodes ∧ w'.tree.root = w₁.tree.root

/-- The node `new` was put in the place of `old`, and the variable that led there was counted again. -/
def Installs (s : Settings) (v : VariableId) (source : SourceRef) (old new : NodeId) (w w' : Workspace) : Prop :=
  ∃ w₁ w₂, replaceNode old new s w = .ok () w₁ ∧ reconsiderVariable v source s w₂ = .ok () w' ∧ w₂.tree = w₁.tree

theorem reconsiderVariable_eq_ok (h : reconsiderVariable v source s w = .ok () w') :
    w'.tree.nodes = w.tree.nodes ∧ w'.tree.root = w.tree.root := by
  obtain ⟨count, w₁, hrun, h⟩ := reads_bind_eq_ok_iff.1 h
  obtain ⟨t, hcount, rfl⟩ := onTree_eq_ok_iff.1 hrun
  obtain ⟨b, -, h⟩ := ask_bind_eq_ok_iff.1 h
  obtain ⟨kind, -, h⟩ := ask_bind_eq_ok_iff.1 h
  have htree : w'.tree = t := by
    split at h <;> (cases h; rfl)
  rw [TreeM.reconsiderVariable, run_get_bind] at hcount
  obtain ⟨b', -, hcheck⟩ := run_check_eq_ok_iff.1 hcount
  obtain ⟨count', -, hset⟩ := run_check_eq_ok_iff.1 hcheck
  cases hset
  rw [htree]
  exact ⟨rfl, rfl⟩

theorem replaceThrough_eq_ok {tags : ChangeTags} {message : String} {result a : α} (h : (do
      replaceNode old new
      signal tags source message
      reconsiderVariable v source
      return result : ReplaceM α) s w = .ok a w') : a = result ∧ Installs s v source old new w w' := by
  obtain ⟨⟨⟩, w₁, hreplace, h⟩ := reads_bind_eq_ok_iff.1 h
  rw [reads_bind_of_ok (signal_ok ..)] at h
  obtain ⟨⟨⟩, w₂, hcount, h⟩ := reads_bind_eq_ok_iff.1 h
  cases h
  exact ⟨rfl, w₁, _, hreplace, hcount, rfl⟩

theorem Installs.supplants (h : Installs s v source old new w w') : Supplants s old new w w' := by
  obtain ⟨w₁, w₂, hreplace, hcount, htree⟩ := h
  obtain ⟨hnodes, hroot⟩ := reconsiderVariable_eq_ok hcount
  exact ⟨w₁, hreplace, htree ▸ hnodes, htree ▸ hroot⟩

/-! ## Calls -/

/-- A call is left alone, or a handler has built what is now in its place. -/
theorem replaceCall_eq_ok {handlers : DispatchTable String CallHandler} (h : replaceCall handlers id s w = .ok id' w') :
    id' = id ∨ ∃ v name handler site w₁, w.tree.calledBuiltin? s.options.version id = some (v, name) ∧
      handlers.lookup? name = some handler ∧ CallSite.read w.tree id v name = .ok (some site) ∧
      handler site s w = .ok (some id') w₁ ∧ Installs s v site.source id id' w₁ w' := by
  rw [replaceCall, reads_bind_of_ok tree_ok, reads_bind_of_ok version_ok] at h
  cases hcalled : w.tree.calledBuiltin? s.options.version id with
  | none =>
    simp only [hcalled] at h
    cases h
    exact .inl rfl
  | some found =>
    obtain ⟨v, name⟩ := found
    simp only [hcalled] at h
    cases hhandler : handlers.lookup? name with
    | none =>
      simp only [hhandler] at h
      cases h
      exact .inl rfl
    | some handler =>
      simp only [hhandler] at h
      obtain ⟨site?, hread, h⟩ := ask_bind_eq_ok_iff.1 h
      cases site? with
      | none =>
        cases h
        exact .inl rfl
      | some site =>
        obtain ⟨new?, w₁, hbuild, h⟩ := reads_bind_eq_ok_iff.1 h
        cases new? with
        | none =>
          cases h
          exact .inl rfl
        | some new =>
          obtain ⟨tags, -, h⟩ := ask_bind_eq_ok_iff.1 h
          obtain ⟨kind, -, h⟩ := ask_bind_eq_ok_iff.1 h
          obtain ⟨rfl, hput⟩ := replaceThrough_eq_ok h
          exact .inr ⟨v, name, handler, site, w₁, rfl, hhandler, hread, hbuild, hput⟩

theorem isInClass_eq_ok {inClass : Bool} (h : isInClass id s w = .ok inClass w') : w = w' := by
  obtain ⟨provider?, -, h⟩ := ask_bind_eq_ok_iff.1 h
  cases provider? with
  | none =>
    cases h
    rfl
  | some provider =>
    obtain ⟨kind, -, h⟩ := ask_bind_eq_ok_iff.1 h
    cases h
    rfl

/-- A statement is left alone, or it was a call of `execfile` whose arguments are now those of an execution. -/
theorem replaceExecStatement_eq_ok {new? : Option NodeId} (h : replaceExecStatement id s w = .ok new? w') :
    (new? = none ∧ w = w') ∨ ∃ new call v name site args slots w₁ t₁, new? = some new ∧
      w.tree.kind id = .ok .statementExpressionOnly ∧ w.tree.child id "expression" = .ok (some call) ∧
      w.tree.calledBuiltin? s.options.version call = some (v, name) ∧
      CallSite.read w.tree call v name = .ok (some site) ∧
      Signature.execfile.bind site.positional site.keywords = .ok args ∧
      Signature.execfile.keywordsInOrder site.keywords = true ∧ execfileSlots site args s w = .ok slots w₁ ∧
      TreeM.newNode .statementExec site.source .none slots w₁.tree = .ok new t₁ ∧
      Installs s v site.source id new { w₁ with tree := t₁ } w' := by
  obtain ⟨kind, hkind, h⟩ := ask_bind_eq_ok_iff.1 h
  by_cases hother : kind ≠ .statementExpressionOnly
  · rw [if_pos hother] at h
    cases h
    exact .inl ⟨rfl, rfl⟩
  obtain rfl : kind = .statementExpressionOnly := by simpa using hother
  rw [if_neg hother] at h
  obtain ⟨call?, hcall, h⟩ := ask_bind_eq_ok_iff.1 h
  cases call? with
  | none =>
    cases h
    exact .inl ⟨rfl, rfl⟩
  | some call =>
  dsimp only at h
  rw [reads_bind_of_ok tree_ok, reads_bind_of_ok version_ok] at h
  cases hcalled : w.tree.calledBuiltin? s.options.version call with
  | none =>
    simp only [hcalled] at h
    cases h
    exact .inl ⟨rfl, rfl⟩
  | some found =>
  obtain ⟨v, name⟩ := found
  simp only [hcalled] at h
  rw [reads_bind_of_ok version_ok] at h
  split at h
  · cases h
    exact .inl ⟨rfl, rfl⟩
  obtain ⟨inClass, w₁, hclass, h⟩ := reads_bind_eq_ok_iff.1 h
  obtain rfl := isInClass_eq_ok hclass
  split at h
  · cases h
    exact .inl ⟨rfl, rfl⟩
  obtain ⟨site?, hread, h⟩ := ask_bind_eq_ok_iff.1 h
  cases site? with
  | none =>
    cases h
    exact .inl ⟨rfl, rfl⟩
  | some site =>
  dsimp only at h
  cases hbind : Signature.execfile.bind site.positional site.keywords with
  | error e =>
    simp only [hbind] at h
    cases h
    exact .inl ⟨rfl, rfl⟩
  | ok args =>
  simp only [hbind] at h
  cases horder : Signature.execfile.keywordsInOrder site.keywords with
  | false =>
    rw [horder, if_pos (by simp)] at h
    cases h
    exact .inl ⟨rfl, rfl⟩
  | true =>
  rw [horder, if_neg (by simp)] at h
  obtain ⟨slots, w₁, hslots, h⟩ := reads_bind_eq_ok_iff.1 h
  obtain ⟨new, w₂, hrun, h⟩ := reads_bind_eq_ok_iff.1 h
  obtain ⟨t₁, hmake, rfl⟩ := onTree_eq_ok_iff.1 hrun
  obtain ⟨rfl, hput⟩ := replaceThrough_eq_ok h
  exact .inr ⟨new, call, v, name, site, args, slots, w₁, t₁, rfl, hkind, hcall, hcalled, hread, hbind, horder, hslots,
    hmake, hput⟩

/-! ## Names -/

/-- A name is left alone, or it is read through a variable that is known never to be rebound. -/
theorem replaceName_eq_ok (h : replaceName id s w = .ok id' w') :
    id' = id ∨ ∃ found, w.tree.readOnlyVariable? id = some found := by
  rw [replaceName, reads_bind_of_ok tree_ok] at h
  cases hread : w.tree.readOnlyVariable? id with
  | none =>
    simp only [hread] at h
    cases h
    exact .inl rfl
  | some found => exact .inr ⟨found, rfl⟩

end Specializer.ReplaceM
