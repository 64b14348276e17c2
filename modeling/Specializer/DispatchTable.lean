/-!
# Dispatch tables

Handlers by key, with an optional handler for all other keys. A later registration of a key replaces the earlier one.
-/

namespace Specializer

/-- Handlers by key. -/
structure DispatchTable (κ η : Type) where
  entries : List (κ × η) := []
  fallback : Option η := none

namespace DispatchTable

variable {κ η : Type} [BEq κ]

/-- Registers a handler for a key. -/
def insert (t : DispatchTable κ η) (key : κ) (handler : η) : DispatchTable κ η :=
  { t with entries := (key, handler) :: t.entries.filter fun entry => !(entry.1 == key) }

/-- Sets the handler for all other keys. -/
def withFallback (t : DispatchTable κ η) (handler : η) : DispatchTable κ η := { t with fallback := some handler }

/-- A table of the given handlers. -/
def ofList (entries : List (κ × η)) : DispatchTable κ η := entries.foldl (fun t e => t.insert e.1 e.2) {}

/-- The handler registered for a key. -/
def registered? (t : DispatchTable κ η) (key : κ) : Option η :=
  (t.entries.find? fun entry => entry.1 == key).map (·.2)

/-- The handler for a key, the fallback if none is registered. -/
def lookup? (t : DispatchTable κ η) (key : κ) : Option η := (t.registered? key).or t.fallback

/-- Whether a handler is registered for a key. -/
def contains (t : DispatchTable κ η) (key : κ) : Bool := (t.registered? key).isSome

/-- How many keys have a handler. -/
def size (t : DispatchTable κ η) : Nat := t.entries.length

/-- Whether no key has a handler. -/
def isEmpty (t : DispatchTable κ η) : Bool := t.entries.isEmpty

section Lookup

variable [LawfulBEq κ]

/-- A registered key has its handler. -/
theorem registered?_insert_self (t : DispatchTable κ η) (key : κ) (handler : η) :
    (t.insert key handler).registered? key = some handler := by
  simp [insert, registered?]

/-- A registration is not seen at any other key. -/
theorem registered?_insert_of_ne (t : DispatchTable κ η) {key other : κ} (handler : η) (h : other ≠ key) :
    (t.insert key handler).registered? other = t.registered? other := by
  have hne : (key == other) = false := by simpa using fun e => h e.symm
  have agree (e : κ × η) : (!(e.1 == key) && e.1 == other) = (e.1 == other) := by
    by_cases he : e.1 = other
    · subst he
      simpa using h
    · simp [he]
  simp [insert, registered?, hne, List.find?_filter, agree]

end Lookup

section Entries

variable {p : κ × η → Prop} {t : DispatchTable κ η}

/-- What holds of all entries of a table holds of the one it finds. -/
theorem of_lookup? [LawfulBEq κ] {key : κ} {handler : η} (hentries : ∀ e ∈ t.entries, p e)
    (hfallback : ∀ handler, t.fallback = some handler → p (key, handler)) (h : t.lookup? key = some handler) :
    p (key, handler) := by
  rw [lookup?, Option.or_eq_some_iff] at h
  rcases h with h | ⟨-, h⟩
  · obtain ⟨e, he, rfl⟩ := Option.map_eq_some_iff.1 h
    have hkey : e.1 = key := by simpa using List.find?_some he
    exact hkey ▸ hentries e (List.mem_of_find?_eq_some he)
  · exact hfallback handler h

theorem forall_insert {key : κ} {handler : η} (ht : ∀ e ∈ t.entries, p e) (h : p (key, handler)) :
    ∀ e ∈ (t.insert key handler).entries, p e := by
  intro e he
  rcases List.mem_cons.1 he with rfl | he
  · exact h
  · exact ht e (List.mem_filter.1 he).1

theorem forall_ofList {entries : List (κ × η)} (h : ∀ e ∈ entries, p e) : ∀ e ∈ (ofList entries).entries, p e := by
  have key : ∀ (l : List (κ × η)) (t : DispatchTable κ η), (∀ e ∈ l, p e) → (∀ e ∈ t.entries, p e) →
      ∀ e ∈ (l.foldl (fun t e => t.insert e.1 e.2) t).entries, p e := by
    intro l
    induction l with
    | nil => exact fun _ _ ht => ht
    | cons a l ih =>
      intro t hl ht
      exact ih _ (fun e he => hl e (List.mem_cons_of_mem a he)) (forall_insert ht (hl a (by simp)))
  exact key entries {} h (by simp)

theorem fallback_ofList (entries : List (κ × η)) : (ofList entries).fallback = none := by
  have key : ∀ (l : List (κ × η)) (t : DispatchTable κ η),
      (l.foldl (fun t e => t.insert e.1 e.2) t).fallback = t.fallback := by
    intro l
    induction l with
    | nil => exact fun _ => rfl
    | cons a l ih => exact fun t => ih _
  exact key entries {}

end Entries

end DispatchTable

end Specializer
