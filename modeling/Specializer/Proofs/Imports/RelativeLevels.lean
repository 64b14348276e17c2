import Mathlib.Algebra.GroupWithZero.Nat
import Specializer.Proofs.Imports.Temporaries

/-!
# The levels of relative imports

The dots of a `from` import become the level of the import that it builds. A level is a signed number, and a negative
one means that the import is not written with dots at all; so dots are safe as long as their number is one of the
positive levels. Then the nodes of the statement carry it (`Lowers.hasLevel`), and looking the module up goes by the
package and asks for one name at most (`Locator.resolve_toInt64`).

Main statement: the level of the imports that a statement with dots builds is the number of its dots, and the module is
looked up relative to the package (`lowerImport_relative`). With more dots than there are positive levels the level
turns negative, and the top level is searched as well.
-/

namespace Specializer

/-! ## Looking up -/

theorem toInt_toInt64 {dots : UInt64} (h : dots.toNat < 2 ^ 63) : dots.toInt64.toInt = dots.toNat := by
  rw [← Int64.toInt_toBitVec, UInt64.toBitVec_toInt64]
  apply BitVec.toInt_eq_toNat_of_lt
  rw [UInt64.toNat_toBitVec]
  omega

namespace Locator

/-- The lookup of a module that is imported with dots: there is one name to ask for, if the dots do not lead out of the
top level. -/
def relative (probe : ModuleName → ModuleFinding) (name : ModuleName) (package : Option ModuleName) (dots : UInt64) :
    ModuleName × ModuleFinding :=
  match ModuleName.relativeTo? package dots name.text with
  | some full => if full.isEmpty then (name, .notFound) else (full, probe full)
  | none => (name, .notFound)

theorem resolve_toInt64 {dots : UInt64} (h : dots.toNat < 2 ^ 63) (probe : ModuleName → ModuleFinding)
    (name : ModuleName) (package : Option ModuleName) :
    resolve probe name package dots.toInt64 = relative probe name package dots := by
  have hnonneg : ¬ dots.toInt64 < 0 := by
    rw [Int64.lt_iff_toInt_lt, toInt_toInt64 h]
    exact Int.not_lt.2 (Int.natCast_nonneg _)
  rw [resolve, if_neg hnonneg, UInt64.toUInt64_toInt64]
  rfl

end Locator

/-! ## Levels of nodes -/

/-- What is imported, if anything, is imported at a level. -/
def Payload.HasLevel (level : Int64) : Payload → Prop
  | .moduleImport spec => spec.level = level
  | .importName _ level' => level' = level
  | _ => True

theorem hasLevel_bound {level : Int64} {t : Tree} {provider : NodeId} {temp : VariableId} {aliases : List ImportAlias}
    {codes : List Code}
    (bound : List.Forall₂ (fun a => Binds t provider a.target (.importName a.name level (.read temp))) aliases codes) :
    ∀ label ∈ codes.flatMap Code.labels, label.2.HasLevel level := by
  induction bound with
  | nil => simp
  | cons hcode _ ih =>
    obtain ⟨v, -, rfl⟩ := hcode
    rw [List.flatMap_cons, List.forall_mem_append]
    exact ⟨by simp [Code.assign, Code.importName, Code.read, Payload.HasLevel], ih⟩

/-- All imports in the code of a `from` import have its level. -/
theorem Lowers.hasLevel {level : Int64} {t : Tree} {provider : NodeId} {module : String} {names : ImportedNames}
    {dots : UInt64} {temp? : Option VariableId} {code : Code}
    (h : Lowers level t provider (.fromModule module names dots) temp? code) :
    ∀ label ∈ code.labels, label.2.HasLevel level := by
  cases h with
  | star => simp [Code.importStar, Code.importModule, Payload.HasLevel]
  | name bound =>
    obtain ⟨v, -, rfl⟩ := bound
    simp [Code.assign, Code.importName, Code.importModule, Payload.HasLevel]
  | names _ bound =>
    rw [Code.labels_shared, List.forall_mem_append, List.forall_mem_append]
    exact ⟨⟨by simp [Payload.HasLevel], hasLevel_bound bound⟩, by simp [Payload.HasLevel]⟩

namespace LoweringM

/-- **The dots of an import survive.** As long as their number is a positive level, all imports among the new nodes have
that level, and the module is looked up by the dots: relative to the package, and never at the top level. -/
theorem lowerImport_relative {m m' : ModuleState} {t t' : Tree} {provider id : NodeId} {module : String}
    {names : ImportedNames} {dots : UInt64} {source : SourceRef} {locator : Locator} (hdots : 1 ≤ dots)
    (hbound : dots.toNat < 2 ^ 63)
    (hrun : lowerImport provider (.fromModule module names dots) source locator ⟨m, t⟩ = .ok id ⟨m', t'⟩) :
    (∃ (level : Int64) (temp? : Option VariableId) (code : Code), level.toInt = dots.toNat ∧ t'.Spells source id code ∧
      Lowers level t' provider (.fromModule module names dots) temp? code) ∧
    ∀ x n, t.nodes.size ≤ x.index → t'.get? x = some n →
      (∀ spec, n.payload = .moduleImport spec → spec.level.toInt = dots.toNat ∧ ∀ probe package,
        Locator.resolve probe spec.module package spec.level = Locator.relative probe spec.module package dots) ∧
      ∀ name level, n.payload = .importName name level → level.toInt = dots.toNat := by
  have hne : dots ≠ 0 := by
    rintro rfl
    exact absurd hdots (by decide)
  have hordinary : ¬ (ImportStatement.fromModule module names dots).IsFuture := by
    rintro ⟨_, ⟨⟩⟩
    exact hne rfl
  obtain ⟨temp?, code, hlowers, -, hputs⟩ := lowerImport_builds hordinary hrun
  have hbuilding := hputs.built
  rw [ImportStatement.level, if_neg hne] at hlowers
  refine ⟨⟨dots.toInt64, temp?, code, toInt_toInt64 hbound, (hbuilding.top _ (List.mem_singleton_self _)).2.2, hlowers⟩,
    fun x n hnew hn => ?_⟩
  obtain ⟨part, hpart, -, label, hlabel, hx⟩ := hbuilding.new x hnew (Tree.lt_size_of_get? hn)
  obtain rfl := List.mem_singleton.1 hpart
  have hlevel : n.payload.HasLevel dots.toInt64 := by
    rw [Tree.label?_of_get? hn, Option.some.injEq] at hx
    subst hx
    exact hlowers.hasLevel _ hlabel
  refine ⟨fun spec hspec => ?_, fun name level hname => ?_⟩
  · rw [hspec] at hlevel
    have heq : spec.level = dots.toInt64 := hlevel
    exact heq ▸ ⟨toInt_toInt64 hbound, fun probe package => Locator.resolve_toInt64 hbound probe spec.module package⟩
  · rw [hname] at hlevel
    have heq : level = dots.toInt64 := hlevel
    exact heq ▸ toInt_toInt64 hbound

/-- As many dots as there are positive levels lead out of every package. -/
theorem lowerImport_relative_mostDots :
    ∃ m' t' level v, lowerImport ⟨0⟩ (.fromModule "q" (.names [⟨"x", none⟩]) 9223372036854775807) default (.ofTable [])
        ⟨.ofSource ⟨"p.m"⟩ "m.py" "" .python3, .classInModule⟩ = .ok ⟨4⟩ ⟨m', t'⟩ ∧
      t'.Spells default ⟨4⟩ (.assign v (.importName "x" level (.importModule ⟨⟨"q"⟩, ["x"], level⟩))) ∧
      level.toInt = 9223372036854775807 ∧
      ∀ x n spec, 2 ≤ x.index → t'.get? x = some n → n.payload = .moduleImport spec →
        ∀ probe, Locator.resolve probe spec.module (some ⟨"p"⟩) spec.level = (spec.module, .notFound) := by
  have hok : succeedsWith (fun id _ => id == ⟨4⟩) (lowerImport ⟨0⟩
      (.fromModule "q" (.names [⟨"x", none⟩]) 9223372036854775807) default (.ofTable [])
      ⟨.ofSource ⟨"p.m"⟩ "m.py" "" .python3, .classInModule⟩) = true := by decide +kernel
  obtain ⟨id, ⟨m', t'⟩, hrun, hid⟩ := succeedsWith_iff.1 hok
  obtain rfl : id = ⟨4⟩ := by simpa using hid
  obtain ⟨⟨level, temp?, code, hlevel, hspells, hlowers⟩, hnew⟩ :=
    lowerImport_relative (by decide) (by decide) hrun
  cases hlowers with
  | name bound =>
    obtain ⟨v, -, rfl⟩ := bound
    refine ⟨m', t', level, v, hrun, hspells, hlevel, fun x n spec hx hn hspec probe => ?_⟩
    rw [((hnew x n hx hn).1 spec hspec).2]
    rfl
  | names several => exact absurd rfl several

/-- One dot more, and the level is negative: a module at the top level is found. -/
theorem manyDots_turnNegative :
    ∃ m' t' v, lowerImport ⟨0⟩ (.fromModule "q" (.names [⟨"x", none⟩]) 9223372036854775808) default (.ofTable [])
        ⟨.ofSource ⟨"p.m"⟩ "m.py" "" .python3, .classInModule⟩ = .ok ⟨4⟩ ⟨m', t'⟩ ∧
      t'.Spells default ⟨4⟩
        (.assign v (.importName "x" Int64.minValue (.importModule ⟨⟨"q"⟩, ["x"], Int64.minValue⟩))) ∧
      (∀ probe, Locator.relative probe ⟨"q"⟩ (some ⟨"p"⟩) 9223372036854775808 = (⟨"q"⟩, .notFound)) ∧
      Locator.resolve (fun name => if name = ⟨"q"⟩ then .builtIn else .notFound) ⟨"q"⟩ (some ⟨"p"⟩) Int64.minValue =
        (⟨"q"⟩, .builtIn) := by
  have hok : succeedsWith (fun id _ => id == ⟨4⟩) (lowerImport ⟨0⟩
      (.fromModule "q" (.names [⟨"x", none⟩]) 9223372036854775808) default (.ofTable [])
      ⟨.ofSource ⟨"p.m"⟩ "m.py" "" .python3, .classInModule⟩) = true := by decide +kernel
  obtain ⟨id, ⟨m', t'⟩, hrun, hid⟩ := succeedsWith_iff.1 hok
  obtain rfl : id = ⟨4⟩ := by simpa using hid
  obtain ⟨temp?, code, hlowers, -, hputs⟩ := lowerImport_builds (by simp [ImportStatement.IsFuture]) hrun
  have hspells := (hputs.built.top _ (List.mem_singleton_self _)).2.2
  cases hlowers with
  | name bound =>
    obtain ⟨v, -, rfl⟩ := bound
    exact ⟨m', t', v, hrun, hspells, fun _ => rfl, by decide +kernel⟩
  | names several => exact absurd rfl several

end LoweringM

end Specializer
