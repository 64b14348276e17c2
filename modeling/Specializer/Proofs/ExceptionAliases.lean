import Specializer.Proofs.Tree.Operands
import Specializer.Proofs.Tree.Operation
import Specializer.Trace

/-!
# The other names of `OSError`

In the newer version `IOError` and `EnvironmentError` are other names of `OSError`. The hierarchy has them as two classes
below it that have nothing below them (`isSubclassOf_alias`, `alias_isSubclassOf`). So a handler for one of them is taken
to catch less than a handler for `OSError`, by the search in a tree (`Consistent.mayRaiseException_alias`) and by a trace
(`Trace.mayExitVia_alias_iff`). `aliases_agree_iff` says exactly when the answers agree.
-/

namespace Specializer

namespace ExceptionKind

/-- The kinds that the newer version has as other names of `OSError`. -/
def osErrorAliases : List ExceptionKind := [.ioError, .environmentError]

variable {other : ExceptionKind} (ha : other ∈ osErrorAliases) (kind : ExceptionKind)
include ha

/-- Nothing is below an alias. -/
theorem isSubclassOf_alias : kind.isSubclassOf .python3 other = true ↔ kind = other := by
  have table : ∀ other ∈ osErrorAliases, ∀ kind ∈ all, kind.isSubclassOf .python3 other = true ↔ kind = other := by
    decide
  exact table other ha kind (mem_all kind)

/-- Above an alias stands what is `OSError` or above it. -/
theorem alias_isSubclassOf : other.isSubclassOf .python3 kind = true ↔
    kind = other ∨ ExceptionKind.osError.isSubclassOf .python3 kind = true := by
  have table : ∀ other ∈ osErrorAliases, ∀ kind ∈ all, other.isSubclassOf .python3 kind = true ↔
      kind = other ∨ ExceptionKind.osError.isSubclassOf .python3 kind = true := by
    decide
  exact table other ha kind (mem_all kind)

end ExceptionKind

open ExceptionKind

/-- Of two questions the first of which implies the second, the answers agree if the first is yes or the second no. -/
theorem eq_iff_of_imp {narrow wide : Bool} (h : narrow = true → wide = true) :
    narrow = wide ↔ narrow = true ∨ ¬ wide = true := by
  cases narrow <;> cases wide <;> simp_all

/-! ## Exits of a trace -/

namespace Trace

variable {trace : Trace} {other : ExceptionKind}

theorem mayExitVia_iff {kind : ExceptionKind} : trace.mayExitVia kind = true ↔ ∃ exit ∈ trace.exits,
    exit.kind.isSubclassOf trace.version kind = true ∨ kind.isSubclassOf trace.version exit.kind = true := by
  simp [mayExitVia]

theorem mayExitVia_alias_iff (ha : other ∈ osErrorAliases) (hversion : trace.version = .python3) :
    trace.mayExitVia other = true ↔ ∃ exit ∈ trace.exits,
      exit.kind = other ∨ ExceptionKind.osError.isSubclassOf .python3 exit.kind = true := by
  rw [mayExitVia_iff, hversion]
  refine exists_congr fun exit => and_congr_right fun _ => ?_
  rw [isSubclassOf_alias ha, alias_isSubclassOf ha, ← or_assoc, or_self]

/-- What a handler for an alias sees, a handler for `OSError` sees. -/
theorem mayExitVia_osError_of_alias (ha : other ∈ osErrorAliases) (hversion : trace.version = .python3)
    (h : trace.mayExitVia other = true) : trace.mayExitVia .osError = true := by
  obtain ⟨exit, hexit, hkind⟩ := (mayExitVia_alias_iff ha hversion).1 h
  refine mayExitVia_iff.2 ⟨exit, hexit, hversion ▸ hkind.imp_left fun heq => ?_⟩
  exact heq ▸ (alias_isSubclassOf ha _).2 (.inr (by decide))

theorem mayExitVia_agrees_iff (ha : other ∈ osErrorAliases) (hversion : trace.version = .python3) :
    trace.mayExitVia other = trace.mayExitVia .osError ↔
      (∃ exit ∈ trace.exits, exit.kind = other ∨ ExceptionKind.osError.isSubclassOf .python3 exit.kind = true) ∨
      ∀ exit ∈ trace.exits, exit.kind.isSubclassOf .python3 .osError = false := by
  have hwide : trace.mayExitVia .osError = true ↔ ∃ exit ∈ trace.exits,
      exit.kind.isSubclassOf .python3 .osError = true ∨ ExceptionKind.osError.isSubclassOf .python3 exit.kind = true := by
    rw [mayExitVia_iff, hversion]
  rw [eq_iff_of_imp (mayExitVia_osError_of_alias ha hversion), ← mayExitVia_alias_iff ha hversion, hwide]
  refine or_congr_right' fun hnone => ⟨fun hno exit hexit => ?_, ?_⟩
  · exact Bool.eq_false_iff.2 fun hsub => hno ⟨exit, hexit, .inl hsub⟩
  · rintro hall ⟨exit, hexit, hbelow | habove⟩
    · rw [hall exit hexit] at hbelow
      cases hbelow
    · exact hnone ((mayExitVia_alias_iff ha hversion).2 ⟨exit, hexit, .inr habove⟩)

end Trace

/-! ## Operands that raise -/

/-- The exception a node is known to raise. -/
def Node.raised? (n : Node) : Option ExceptionKind :=
  match n.payload with
  | .raise raised => some raised.kind
  | _ => none

/-- A node may raise, and nothing is known about what it raises. -/
def Node.MayRaiseAnything (n : Node) : Prop := n.raised? = none ∧ n.capabilities.mayRaise = true

namespace Tree

variable {t : Tree} {id : NodeId} {n : Node} {version : Version} {kind other : ExceptionKind}

theorem raisesInto_iff : raisesInto version kind n = true ↔
    n.MayRaiseAnything ∨ ∃ raised, n.raised? = some raised ∧ raised.isSubclassOf version kind = true := by
  cases hpayload : n.payload <;> simp [raisesInto, Node.MayRaiseAnything, Node.raised?, hpayload]

theorem raisesInto_alias_iff (ha : other ∈ osErrorAliases) :
    raisesInto .python3 other n = true ↔ n.MayRaiseAnything ∨ n.raised? = some other := by
  simp [raisesInto_iff, isSubclassOf_alias ha]

theorem raisesInto_osError_of_alias (ha : other ∈ osErrorAliases) (h : raisesInto .python3 other n = true) :
    raisesInto .python3 .osError n = true := by
  refine raisesInto_iff.2 (((raisesInto_alias_iff ha).1 h).imp_right fun heq => ⟨other, heq, ?_⟩)
  exact (alias_isSubclassOf ha _).2 (.inr (by decide))

theorem Consistent.mayRaiseException_alias (h : t.Consistent) (hid : t.get? id = some n) (ha : other ∈ osErrorAliases) :
    ∃ wide narrow, t.mayRaiseException .python3 .osError id = .ok wide ∧
      t.mayRaiseException .python3 other id = .ok narrow ∧ (narrow = true → wide = true) ∧
      (narrow = wide ↔
        (∃ x m, t.Evaluates id x ∧ t.get? x = some m ∧ (m.MayRaiseAnything ∨ m.raised? = some other)) ∨
        ∀ x m raised, t.Evaluates id x → t.get? x = some m → m.raised? = some raised →
          raised.isSubclassOf .python3 .osError = false) := by
  obtain ⟨wide, hwide⟩ := h.anyOperand_ok (raisesInto .python3 .osError) hid
  obtain ⟨narrow, hnarrow⟩ := h.anyOperand_ok (raisesInto .python3 other) hid
  have hwide' := (h.anyOperand_eq_ok_iff hid).1 hwide
  have hnarrow' := (h.anyOperand_eq_ok_iff hid).1 hnarrow
  have himp : narrow = true → wide = true := by
    rw [hwide', hnarrow']
    rintro ⟨x, m, hx, hm, hraises⟩
    exact ⟨x, m, hx, hm, raisesInto_osError_of_alias ha hraises⟩
  refine ⟨wide, narrow, hwide, hnarrow, himp, ?_⟩
  simp only [raisesInto_alias_iff ha] at hnarrow'
  rw [eq_iff_of_imp himp, ← hnarrow', hwide']
  refine or_congr_right' fun hnone => ⟨fun hno x m raised hx hm hraised => ?_, ?_⟩
  · refine Bool.eq_false_iff.2 fun hsub => hno ⟨x, m, hx, hm, ?_⟩
    exact raisesInto_iff.2 (.inr ⟨raised, hraised, hsub⟩)
  · rintro hall ⟨x, m, hx, hm, hraises⟩
    obtain hany | ⟨raised, hraised, hsub⟩ := raisesInto_iff.1 hraises
    · exact hnone (hnarrow'.2 ⟨x, m, hx, hm, .inl hany⟩)
    · rw [hall x m raised hx hm hraised] at hsub
      cases hsub

/-- **The names of `OSError` are kept apart.** In the newer version a handler for one of the other names of `OSError`
never catches more than a handler for `OSError`. The search in a tree gives both the same answer exactly if an operand
may raise anything or raises that very name, or none raises an `OSError`; a trace does so exactly if an exit is of that
very name or of a class above it, or none is an `OSError`. -/
theorem aliases_agree_iff (h : t.Consistent) (hid : t.get? id = some n) (ha : other ∈ osErrorAliases) :
    (∃ wide narrow, t.mayRaiseException .python3 .osError id = .ok wide ∧
      t.mayRaiseException .python3 other id = .ok narrow ∧ (narrow = true → wide = true) ∧
      (narrow = wide ↔
        (∃ x m, t.Evaluates id x ∧ t.get? x = some m ∧ (m.MayRaiseAnything ∨ m.raised? = some other)) ∨
        ∀ x m raised, t.Evaluates id x → t.get? x = some m → m.raised? = some raised →
          raised.isSubclassOf .python3 .osError = false)) ∧
    ∀ trace : Trace, trace.version = .python3 →
      (trace.mayExitVia other = true → trace.mayExitVia .osError = true) ∧
      (trace.mayExitVia other = trace.mayExitVia .osError ↔
        (∃ exit ∈ trace.exits, exit.kind = other ∨ ExceptionKind.osError.isSubclassOf .python3 exit.kind = true) ∨
        ∀ exit ∈ trace.exits, exit.kind.isSubclassOf .python3 .osError = false) :=
  ⟨h.mayRaiseException_alias hid ha, fun _ hversion =>
    ⟨Trace.mayExitVia_osError_of_alias ha hversion, Trace.mayExitVia_agrees_iff ha hversion⟩⟩

/-- An expression that raises an `IOError`, and after it a `FileNotFoundError`. -/
def openMissing : Tree :=
  .applyAll {} [
    .makeRaise ⟨.ioError, "spam"⟩ default,
    .makeRaise ⟨.fileNotFoundError, "spam"⟩ default,
    .makeSideEffects [⟨0⟩] ⟨1⟩ default]

/-- The first operand raises an `IOError`, so a handler for that name is taken to catch what one for `OSError` catches. -/
theorem aliases_agree_iff_openMissing : openMissing.Built ∧ ExceptionKind.ioError ∈ osErrorAliases ∧
    openMissing.isLive ⟨2⟩ = true ∧ (∃ answer, openMissing.mayRaiseException .python3 .osError ⟨2⟩ = .ok answer ∧
      openMissing.mayRaiseException .python3 .ioError ⟨2⟩ = .ok answer) := by
  have hbuilt : openMissing.Built := ⟨_, rfl⟩
  have hmember : ExceptionKind.ioError ∈ osErrorAliases := by decide
  have hlive : openMissing.isLive ⟨2⟩ = true := by decide +kernel
  obtain ⟨n, hn⟩ := isLive_iff.1 hlive
  obtain ⟨⟨wide, narrow, hwide, hnarrow, -, hagree⟩, -⟩ := aliases_agree_iff hbuilt.consistent hn hmember
  have hfeeds : openMissing.Feeds ⟨2⟩ ⟨0⟩ := ⟨rfl, nofun, nofun⟩
  have hsame : narrow = wide := hagree.2 (.inl ⟨⟨0⟩, _, .single hfeeds, rfl, .inr rfl⟩)
  exact ⟨hbuilt, hmember, hlive, wide, hwide, hsame ▸ hnarrow⟩

/-- A missing file is seen by a handler for `OSError`, but not by one for the other names of that class. -/
theorem missingFile_escapesAliases : openMissing.Built ∧ openMissing.isLive ⟨1⟩ = true ∧
    openMissing.mayRaiseException .python3 .osError ⟨1⟩ = .ok true ∧
    openMissing.mayRaiseException .python3 .ioError ⟨1⟩ = .ok false ∧
    openMissing.mayRaiseException .python3 .environmentError ⟨1⟩ = .ok false ∧
    let trace : Trace := Trace.recordExit ⟨⟨0⟩, "m", .python3, [], false⟩ .fileNotFoundError default
    trace.mayExitVia .osError = true ∧ trace.mayExitVia .ioError = false ∧ trace.mayExitVia .environmentError = false :=
  ⟨⟨_, rfl⟩, by decide +kernel, rfl, rfl, rfl, by decide⟩

end Tree

end Specializer
