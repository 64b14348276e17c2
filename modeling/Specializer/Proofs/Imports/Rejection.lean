import Specializer.Proofs.Imports.Temporaries

/-!
# Rejected imports

A fault of the source is found before anything is built: once the checks of a statement have passed, what can still go
wrong is not the source's fault (`Proceeds.not_malformed`). So a rejected statement leaves the tree as it was.

The state of the module is another matter. Features are enabled one after the other, each as soon as it is found to
exist, and those before the first one that does not stay enabled (`enableFeatures_malformed`).

Main statement: what a rejected import statement leaves behind (`lowerImport_malformed`).
-/

namespace Specializer

/-- Of the features that are named, those in front of the first one that is refused are enabled. -/
def ModuleState.EnablesSome (m : ModuleState) (aliases : List ImportAlias) (m' : ModuleState) : Prop :=
  ∃ before a after flags, aliases = before ++ a :: after ∧
    List.Forall₂ (fun b flag => FutureFlags.lookup b.name = .known flag) before flags ∧
    (∀ flag, FutureFlags.lookup a.name ≠ .known flag) ∧
    m' = { m with future := flags.foldl FutureFlags.union m.future }

namespace LoweringM

open Lowering

variable {α : Type} {x : LoweringM α} {provider : NodeId} {source : SourceRef} {locator : Locator} {s s' : Lowering}
  {e : SyntaxError}

theorem Proceeds.not_malformed (hx : Proceeds False x) : x locator s ≠ .error (.malformed e) s' := by
  intro hrun
  have hfault := hx locator s
  rw [hrun] at hfault
  exact hfault.2 rfl

theorem enableFeatures_malformed {aliases : List ImportAlias}
    (h : enableFeatures source aliases locator s = .error (.malformed e) s') :
    s'.tree = s.tree ∧ s.module.EnablesSome aliases s'.module := by
  induction aliases generalizing s with
  | nil => cases h
  | cons a aliases ih =>
    rw [enableFeatures] at h
    cases hfeature : FutureFlags.lookup a.name with
    | known flag =>
      rw [hfeature] at h
      obtain ⟨htree, before, b, after, flags, rfl, hflags, hrefused, hmodule⟩ :=
        ih (s := { s with module := { s.module with future := s.module.future.union flag } }) h
      exact ⟨htree, a :: before, b, after, flag :: flags, rfl, .cons hfeature hflags, hrefused, hmodule⟩
    | notAChance =>
      rw [hfeature] at h
      cases h
      exact ⟨rfl, [], a, aliases, [], rfl, .nil, by simp [hfeature], rfl⟩
    | unknown =>
      rw [hfeature] at h
      cases h
      exact ⟨rfl, [], a, aliases, [], rfl, .nil, by simp [hfeature], rfl⟩

theorem lowerFuture_malformed {names : ImportedNames}
    (h : lowerFuture provider names source locator s = .error (.malformed e) s') :
    s'.tree = s.tree ∧ (s'.module = s.module ∨
      ∃ aliases, names = .names aliases ∧ s.module.EnablesSome aliases s'.module) := by
  rw [lowerFuture_eq] at h
  rcases reads_bind_eq_error_iff.1 h with hearly | ⟨_, s₁, hearly, hlater⟩
  · obtain rfl := checks_requireEarly.eq_of_error hearly
    exact ⟨rfl, .inl rfl⟩
  obtain rfl := checks_requireEarly.eq_of_ok hearly
  cases names with
  | star =>
    cases hlater
    exact ⟨rfl, .inl rfl⟩
  | names aliases =>
    rcases reads_bind_eq_error_iff.1 hlater with henable | ⟨_, s₂, -, hbuild⟩
    · obtain ⟨htree, hsome⟩ := enableFeatures_malformed henable
      exact ⟨htree, .inr ⟨aliases, rfl, hsome⟩⟩
    · exact absurd hbuild (proceeds_lowerFeatures aliases).not_malformed

theorem lowerFrom_malformed {module : String} {names : ImportedNames} {dots : UInt64}
    (h : lowerFrom provider module names dots source locator s = .error (.malformed e) s') : s' = s := by
  cases names with
  | names aliases => exact absurd h (proceeds_lowerFrom_names aliases).not_malformed
  | star =>
    rw [lowerFrom_star] at h
    rcases reads_bind_eq_error_iff.1 h with hallowed | ⟨_, s₁, -, hbuild⟩
    · exact checks_allowStar.eq_of_error hallowed
    · exact absurd hbuild (Proceeds.newNode.bind fun _ => .newNode).not_malformed

/-- **What a rejected import statement leaves behind.** The tree is as it was. A statement that enables no features has
been noted, and nothing else about the module has changed; one that does has changed nothing, or has enabled the
features that it names in front of the first one that is refused. -/
theorem lowerImport_malformed {m m' : ModuleState} {t t' : Tree} {statement : ImportStatement}
    (hrun : lowerImport provider statement source locator ⟨m, t⟩ = .error (.malformed e) ⟨m', t'⟩) :
    t' = t ∧ (¬ statement.IsFuture → m' = m.noteStatement) ∧
      ∀ names, statement = .fromModule "__future__" names 0 →
        m' = m ∨ ∃ aliases, names = .names aliases ∧ m.EnablesSome aliases m' := by
  cases statement with
  | modules aliases =>
    exact absurd hrun (proceeds_noteStatement.bind fun _ => proceeds_lowerModules aliases).not_malformed
  | fromModule module names dots =>
    rw [lowerImport] at hrun
    split at hrun
    · next hfuture =>
      obtain ⟨rfl, rfl⟩ := hfuture
      obtain ⟨htree, hmodule⟩ := lowerFuture_malformed hrun
      refine ⟨htree, fun hnot => absurd ⟨names, rfl⟩ hnot, ?_⟩
      rintro _ ⟨⟩
      exact hmodule
    · next hordinary =>
      cases lowerFrom_malformed (s := ⟨m.noteStatement, t⟩) hrun
      refine ⟨rfl, fun _ => rfl, ?_⟩
      rintro _ ⟨⟩
      exact absurd ⟨rfl, rfl⟩ hordinary

/-- Whether a run finds the source at fault and leaves a state that passes a test. -/
def rejectsWith (test : SyntaxError → Lowering → Bool) : EStateM.Result CompileError Lowering α → Bool
  | .error (.malformed e) s => test e s
  | _ => false

theorem rejectsWith_iff {test : SyntaxError → Lowering → Bool} {r : EStateM.Result CompileError Lowering α} :
    rejectsWith test r = true ↔ ∃ e s, r = .error (.malformed e) s ∧ test e s = true := by
  constructor
  · intro h
    cases r with
    | ok a s => cases h
    | error e s =>
      cases e with
      | malformed e => exact ⟨e, s, rfl, h⟩
      | internal reason => cases h
      | tree e => cases h
  · rintro ⟨e, s, rfl, h⟩
    exact h

/-- A star import in a class. -/
theorem lowerImport_malformed_starInClass :
    ∃ e m' t', lowerImport ⟨1⟩ (.fromModule "os" .star 0) default (.ofTable [])
        ⟨.ofSource ⟨"m"⟩ "m.py" "" .python3, .classInModule⟩ = .error (.malformed e) ⟨m', t'⟩ ∧
      e.reason = "import * only allowed at module level" ∧ t' = .classInModule ∧
      m' = (ModuleState.ofSource ⟨"m"⟩ "m.py" "" .python3).noteStatement := by
  have hrejects : rejectsWith (fun e _ => e.reason == "import * only allowed at module level")
      (lowerImport ⟨1⟩ (.fromModule "os" .star 0) default (.ofTable [])
        ⟨.ofSource ⟨"m"⟩ "m.py" "" .python3, .classInModule⟩) = true := by decide +kernel
  obtain ⟨e, ⟨m', t'⟩, hrun, hreason⟩ := rejectsWith_iff.1 hrejects
  obtain ⟨rfl, hnoted, -⟩ := lowerImport_malformed hrun
  exact ⟨e, m', _, hrun, eq_of_beq hreason, rfl, hnoted (by simp [ImportStatement.IsFuture])⟩

/-- A rejected import can leave a feature enabled: `from __future__ import absolute_import, braces`. -/
theorem braces_keepAbsoluteImport :
    ∃ e s', lowerImport ⟨0⟩ (.fromModule "__future__" (.names [⟨"absolute_import", none⟩, ⟨"braces", none⟩]) 0) default
        (.ofTable []) ⟨.ofSource ⟨"m"⟩ "m.py" "" .python2, .classInModule⟩ = .error (.malformed e) s' ∧
      e.reason = "not a chance" ∧ (ModuleState.ofSource ⟨"m"⟩ "m.py" "" .python2).future = {} ∧
      s'.module.future = { absoluteImport := true } := by
  have hrejects : rejectsWith (fun e s' => e.reason == "not a chance" && s'.module.future == { absoluteImport := true })
      (lowerImport ⟨0⟩ (.fromModule "__future__" (.names [⟨"absolute_import", none⟩, ⟨"braces", none⟩]) 0) default
        (.ofTable []) ⟨.ofSource ⟨"m"⟩ "m.py" "" .python2, .classInModule⟩) = true := by decide +kernel
  obtain ⟨e, s', hrun, htest⟩ := rejectsWith_iff.1 hrejects
  obtain ⟨hreason, hfuture⟩ := Bool.and_eq_true_iff.1 htest
  exact ⟨e, s', hrun, eq_of_beq hreason, rfl, eq_of_beq hfuture⟩

end LoweringM

end Specializer
