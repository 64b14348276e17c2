import Specializer.Constant.Basic

/-!
# The values inside a value

`members` are the values directly inside a container, and `parts` a value with all values inside it, at any depth. What
holds of a value whenever it holds of its members holds of every value (`memberwise`).
-/

namespace Specializer.Constant

/-! ## Members -/

/-- The values directly inside a value. -/
def members : Constant → List Constant
  | .tuple items | .list items => items
  | .dict entries => entries.flatMap fun e => [e.1, e.2]
  | _ => []

theorem mem_members_dict {c : Constant} {entries : List (Constant × Constant)} :
    c ∈ (dict entries).members ↔ ∃ e ∈ entries, c = e.1 ∨ c = e.2 := by
  simp [members]

theorem key_mem_members {e : Constant × Constant} {entries : List (Constant × Constant)} (h : e ∈ entries) :
    e.1 ∈ (dict entries).members :=
  mem_members_dict.2 ⟨e, h, .inl rfl⟩

theorem value_mem_members {e : Constant × Constant} {entries : List (Constant × Constant)} (h : e ∈ entries) :
    e.2 ∈ (dict entries).members :=
  mem_members_dict.2 ⟨e, h, .inr rfl⟩

section Induction

variable {motive : Constant → Prop}

mutual

/-- Induction over values: what holds of a value if it holds of its members holds of every value. -/
@[elab_as_elim]
theorem memberwise (step : ∀ c, (∀ x ∈ c.members, motive x) → motive c) : ∀ c, motive c
  | .tuple items => step (.tuple items) (memberwise_items step items)
  | .list items => step (.list items) (memberwise_items step items)
  | .dict entries => step (.dict entries) (memberwise_entries step entries)
  | .none | .bool _ | .int _ | .long _ | .float _ | .str _ | .bytes _ | .range _ => step _ nofun

theorem memberwise_items (step : ∀ c, (∀ x ∈ c.members, motive x) → motive c) :
    ∀ items : List Constant, ∀ x ∈ items, motive x
  | [] => nofun
  | c :: items => List.forall_mem_cons.2 ⟨memberwise step c, memberwise_items step items⟩

theorem memberwise_entries (step : ∀ c, (∀ x ∈ c.members, motive x) → motive c) :
    ∀ entries : List (Constant × Constant), ∀ x ∈ entries.flatMap fun e => [e.1, e.2], motive x
  | [] => nofun
  | (key, value) :: entries => by
    have hkey := memberwise step key
    have hvalue := memberwise step value
    exact List.forall_mem_cons.2 ⟨hkey, List.forall_mem_cons.2 ⟨hvalue, memberwise_entries step entries⟩⟩

end

end Induction

/-! ## Parts -/

mutual

/-- A value and all values inside it, at any depth. -/
def parts : Constant → List Constant
  | .tuple items => .tuple items :: partsOfItems items
  | .list items => .list items :: partsOfItems items
  | .dict entries => .dict entries :: partsOfEntries entries
  | c => [c]
termination_by structural c => c

/-- The parts of the items of a container. -/
def partsOfItems : List Constant → List Constant
  | [] => []
  | c :: rest => c.parts ++ partsOfItems rest
termination_by structural items => items

/-- The parts of the keys and values of a dictionary. -/
def partsOfEntries : List (Constant × Constant) → List Constant
  | [] => []
  | (key, value) :: rest => key.parts ++ value.parts ++ partsOfEntries rest
termination_by structural entries => entries

end

theorem partsOfItems_eq (items : List Constant) : partsOfItems items = items.flatMap parts := by
  induction items with
  | nil => rfl
  | cons c items ih => rw [partsOfItems, ih, List.flatMap_cons]

theorem partsOfEntries_eq (entries : List (Constant × Constant)) :
    partsOfEntries entries = (entries.flatMap fun e => [e.1, e.2]).flatMap parts := by
  induction entries with
  | nil => rfl
  | cons e entries ih => simp [partsOfEntries, ih]

theorem parts_eq (c : Constant) : c.parts = c :: c.members.flatMap parts := by
  cases c <;> simp [parts, members, partsOfItems_eq, partsOfEntries_eq]

theorem mem_parts_self (c : Constant) : c ∈ c.parts := by
  simp [parts_eq c]

theorem parts_subset {c x : Constant} (h : x ∈ c.members) : x.parts ⊆ c.parts := by
  intro y hy
  rw [parts_eq c]
  exact List.mem_cons_of_mem _ (List.mem_flatMap.2 ⟨x, h, hy⟩)

end Specializer.Constant
