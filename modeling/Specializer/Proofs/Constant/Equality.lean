import Mathlib.Data.List.Forall2
import Specializer.Constant.Equality
import Specializer.Proofs.Constant.Parts

/-!
# Equality of constants is an equivalence

Equality in the language compares numbers across their types, sequences member by member, ranges by their members, and
dictionaries in one direction only: they have the same size, and every entry of the first has an equal one in the second.
`Agree` says this kind by kind, and `eqv_iff` that it is what `eqv` decides as long as no float is compared.

On values without floats in which the keys of every dictionary differ, equality is reflexive, symmetric and transitive
(`eqv_equivalence`). Symmetry and transitivity go together, by induction on the first value: two entries of a dictionary
cannot be equal to the same entry of another one, since their keys would be equal, so an inclusion of entries between
dictionaries of the same size goes both ways (`exists_of_injective`).
-/

namespace Specializer.Constant

/-! ## Values that can be compared -/

/-- No two keys of a list of entries are equal. -/
def DistinctKeys (entries : List (Constant × Constant)) : Prop := entries.Pairwise fun e e' => e.1.eqv e'.1 = false

instance : DecidablePred DistinctKeys := fun entries =>
  inferInstanceAs (Decidable (entries.Pairwise fun e e' => e.1.eqv e'.1 = false))

/-- A value can be compared: it holds no float, and no dictionary in it has two equal keys. -/
structure Comparable (c : Constant) : Prop where
  noFloat : ∀ x ∈ c.parts, x.isFloat = false
  distinctKeys : ∀ entries, .dict entries ∈ c.parts → DistinctKeys entries

namespace Comparable

variable {c x : Constant} {entries : List (Constant × Constant)}

theorem member (h : c.Comparable) (hx : x ∈ c.members) : x.Comparable :=
  ⟨fun y hy => h.noFloat y (parts_subset hx hy), fun entries hy => h.distinctKeys entries (parts_subset hx hy)⟩

theorem isFloat_eq (h : c.Comparable) : c.isFloat = false := h.noFloat c c.mem_parts_self

theorem keys (h : (dict entries).Comparable) : DistinctKeys entries := h.distinctKeys entries (mem_parts_self _)

end Comparable

/-! ## Equality by kind -/

/-- Two values agree if they are of the same kind and their members are related: numbers by their value, sequences one by
one, ranges by their members, dictionaries by size and inclusion. -/
inductive Agree (R : Constant → Constant → Prop) : Constant → Constant → Prop
  | none : Agree R .none .none
  | number {a b : Constant} {n : Int64} : a.asInt? = some n → b.asInt? = some n → Agree R a b
  | str (s : String) : Agree R (.str s) (.str s)
  | bytes (b : List UInt8) : Agree R (.bytes b) (.bytes b)
  | tuple {s t : List Constant} : List.Forall₂ R s t → Agree R (.tuple s) (.tuple t)
  | list {s t : List Constant} : List.Forall₂ R s t → Agree R (.list s) (.list t)
  | dict {s t : List (Constant × Constant)} : s.length = t.length →
      (∀ e ∈ s, ∃ e' ∈ t, R e.1 e'.1 ∧ R e.2 e'.2) → Agree R (.dict s) (.dict t)
  | range {r s : IntRange} : r.elements = s.elements → Agree R (.range r) (.range s)

/-- Equality as a relation. -/
def Eqv (a b : Constant) : Prop := a.eqv b = true

theorem eqvItems_iff {s t : List Constant} : eqvItems s t = true ↔ List.Forall₂ Eqv s t := by
  induction s generalizing t with
  | nil => cases t <;> simp [eqvItems]
  | cons a s ih => cases t <;> simp [eqvItems, ih, Eqv]

theorem entriesWithin_iff {s t : List (Constant × Constant)} :
    entriesWithin s t = true ↔ ∀ e ∈ s, ∃ e' ∈ t, Eqv e.1 e'.1 ∧ Eqv e.2 e'.2 := by
  induction s with
  | nil => simp [entriesWithin]
  | cons e s ih => simp [entriesWithin, ih, Eqv]

theorem numbersEqv_iff {a b : Constant} (ha : a.isFloat = false) (hb : b.isFloat = false) :
    numbersEqv a b = true ↔ ∃ n, a.asInt? = some n ∧ b.asInt? = some n := by
  unfold numbersEqv
  split
  · next m n hm hn =>
    rw [beq_iff_eq]
    constructor
    · rintro rfl
      exact ⟨m, hm, hn⟩
    · rintro ⟨k, hk, hk'⟩
      exact Option.some.inj ((hm.symm.trans hk).trans (hk'.symm.trans hn))
  · next hnone =>
    simp only [ha, hb, Bool.or_self, Bool.false_eq_true, if_false, false_iff]
    rintro ⟨n, hm, hn⟩
    exact hnone n n hm hn

/-- A number is equal to numbers only. -/
theorem eqv_of_asInt? {a b : Constant} {n : Int64} (ha : a.asInt? = some n) : a.eqv b = numbersEqv a b := by
  cases a <;> first | rfl | cases ha

/-- **What equality decides**, without floats. -/
theorem eqv_iff {a b : Constant} (ha : a.isFloat = false) (hb : b.isFloat = false) : Eqv a b ↔ Agree Eqv a b := by
  constructor
  · unfold Eqv
    fun_cases eqv a b with
    | case1 => exact fun _ => .none
    | case2 s t =>
      intro h
      obtain rfl := beq_iff_eq.1 h
      exact .str s
    | case3 s t =>
      intro h
      obtain rfl := beq_iff_eq.1 h
      exact .bytes s
    | case4 s t => exact fun h => .tuple (eqvItems_iff.1 h)
    | case5 s t => exact fun h => .list (eqvItems_iff.1 h)
    | case6 s t =>
      intro h
      obtain ⟨hlength, hwithin⟩ := Bool.and_eq_true_iff.1 h
      exact .dict (beq_iff_eq.1 hlength) (entriesWithin_iff.1 hwithin)
    | case7 r s => exact fun h => .range (beq_iff_eq.1 h)
    | case8 a b =>
      intro h
      obtain ⟨n, hm, hn⟩ := (numbersEqv_iff ha hb).1 h
      exact .number hm hn
  · intro h
    cases h with
    | none => rfl
    | number hm hn => rw [Eqv, eqv_of_asInt? hm, numbersEqv_iff ha hb]; exact ⟨_, hm, hn⟩
    | str s => simp [Eqv, eqv]
    | bytes b => simp [Eqv, eqv]
    | tuple h => simpa [Eqv, eqv] using eqvItems_iff.2 h
    | list h => simpa [Eqv, eqv] using eqvItems_iff.2 h
    | dict hlength h => simpa [Eqv, eqv, hlength] using entriesWithin_iff.2 h
    | range h => simpa [Eqv, eqv] using h

/-! ## The laws of equality -/

/-- If every member of a list is related to a member of another one that is no longer, and no two to the same, then every
member of the other list is related to one. -/
theorem exists_of_injective {α β : Type} {R : α → β → Prop} {s : List α} {t : List β} (hlength : t.length ≤ s.length)
    (htotal : ∀ x ∈ s, ∃ y ∈ t, R x y) (hinjective : s.Pairwise fun x x' => ∀ y ∈ t, R x y → ¬ R x' y) :
    ∀ y ∈ t, ∃ x ∈ s, R x y := by
  induction s generalizing t with
  | nil =>
    obtain rfl : t = [] := List.length_eq_zero_iff.1 (by simpa using hlength)
    simp
  | cons x s ih =>
    obtain ⟨hx, hs⟩ := List.pairwise_cons.1 hinjective
    obtain ⟨y, hy, hxy⟩ := htotal x (by simp)
    -- the partner of `x` leaves the other list, and the others keep theirs
    obtain ⟨before, after, rfl⟩ := List.append_of_mem hy
    have hrest : ∀ z ∈ before ++ after, ∃ x' ∈ s, R x' z := by
      apply ih
      · simp only [List.length_append, List.length_cons] at hlength ⊢
        omega
      · intro x' hx'
        obtain ⟨z, hz, hx'z⟩ := htotal x' (by simp [hx'])
        have hne : z ≠ y := by
          rintro rfl
          exact hx x' hx' z hz hxy hx'z
        refine ⟨z, ?_, hx'z⟩
        simpa [hne] using hz
      · exact hs.imp fun h z hz => h z (by rcases List.mem_append.1 hz with hz | hz <;> simp [hz])
    intro z hz
    by_cases hzy : z = y
    · exact ⟨x, by simp, hzy ▸ hxy⟩
    · obtain ⟨x', hx', hx'z⟩ := hrest z (by simpa [hzy] using hz)
      exact ⟨x', by simp [hx'], hx'z⟩

theorem Eqv.refl {c : Constant} (h : c.Comparable) : Eqv c c := by
  induction c using memberwise with
  | step c ih =>
    have hmembers : ∀ x ∈ c.members, Eqv x x := fun x hx => ih x hx (h.member hx)
    rw [eqv_iff h.isFloat_eq h.isFloat_eq]
    cases c with
    | none => exact .none
    | bool b => exact .number rfl rfl
    | int n => exact .number rfl rfl
    | long n => exact .number rfl rfl
    | float x => cases h.isFloat_eq
    | str s => exact .str s
    | bytes b => exact .bytes b
    | tuple items => exact .tuple (List.forall₂_same.2 hmembers)
    | list items => exact .list (List.forall₂_same.2 hmembers)
    | dict entries =>
      refine .dict rfl fun e he => ⟨e, he, ?_, ?_⟩
      · exact hmembers _ (key_mem_members he)
      · exact hmembers _ (value_mem_members he)
    | range r => exact .range rfl

/-- What is equal to a value is equal the other way round, and what is equal to that is equal to the value. -/
structure Lawful (a : Constant) : Prop where
  symm : ∀ b, b.Comparable → Eqv a b → Eqv b a
  trans : ∀ b c, b.Comparable → c.Comparable → Eqv a b → Eqv b c → Eqv a c

section Members

variable {s t u : List Constant}

theorem forall₂_symm (hs : ∀ a ∈ s, a.Lawful) (ht : ∀ b ∈ t, b.Comparable) (h : List.Forall₂ Eqv s t) :
    List.Forall₂ Eqv t s := by
  induction h with
  | nil => exact .nil
  | cons hab _ ih =>
    obtain ⟨ha, hs⟩ := List.forall_mem_cons.1 hs
    obtain ⟨hb, ht⟩ := List.forall_mem_cons.1 ht
    exact .cons (ha.symm _ hb hab) (ih hs ht)

theorem forall₂_trans (hs : ∀ a ∈ s, a.Lawful) (ht : ∀ b ∈ t, b.Comparable) (hu : ∀ c ∈ u, c.Comparable)
    (h : List.Forall₂ Eqv s t) (h' : List.Forall₂ Eqv t u) : List.Forall₂ Eqv s u := by
  induction h generalizing u with
  | nil =>
    cases h'
    exact .nil
  | cons hab _ ih =>
    obtain _ | ⟨hbc, h'⟩ := h'
    obtain ⟨ha, hs⟩ := List.forall_mem_cons.1 hs
    obtain ⟨hb, ht⟩ := List.forall_mem_cons.1 ht
    obtain ⟨hc, hu⟩ := List.forall_mem_cons.1 hu
    exact .cons (ha.trans _ _ hb hc hab hbc) (ih hs ht hu h')

end Members

section Entries

variable {s t u : List (Constant × Constant)}

/-- Two entries with different keys are not equal to the same entry. -/
theorem not_eqv_of_distinct {a b k : Constant} (ha : a.Lawful) (hb : b.Lawful) (hb' : b.Comparable) (hk : k.Comparable)
    (hne : a.eqv b = false) (hak : Eqv a k) : ¬ Eqv b k := by
  intro hbk
  have hab : Eqv a b := ha.trans k b hk hb' hak (hb.symm k hk hbk)
  exact Bool.false_ne_true (hne.symm.trans hab)

/-- Between dictionaries of the same size, inclusion goes both ways. -/
theorem entries_symm (hs : (dict s).Comparable) (ht : (dict t).Comparable) (hlawful : ∀ x ∈ (dict s).members, x.Lawful)
    (hlength : s.length = t.length) (h : ∀ e ∈ s, ∃ e' ∈ t, Eqv e.1 e'.1 ∧ Eqv e.2 e'.2) :
    ∀ e' ∈ t, ∃ e ∈ s, Eqv e'.1 e.1 ∧ Eqv e'.2 e.2 := by
  have hinjective : s.Pairwise fun e e' => ∀ q ∈ t, Eqv e.1 q.1 ∧ Eqv e.2 q.2 → ¬ (Eqv e'.1 q.1 ∧ Eqv e'.2 q.2) := by
    refine hs.keys.imp_of_mem fun he he' hne q hq hmatch hmatch' => ?_
    exact not_eqv_of_distinct (hlawful _ (key_mem_members he)) (hlawful _ (key_mem_members he'))
      (hs.member (key_mem_members he')) (ht.member (key_mem_members hq)) hne hmatch.1 hmatch'.1
  intro q hq
  obtain ⟨e, he, hmatch⟩ := exists_of_injective (Nat.le_of_eq hlength.symm) h hinjective q hq
  refine ⟨e, he, ?_, ?_⟩
  · exact (hlawful _ (key_mem_members he)).symm _ (ht.member (key_mem_members hq)) hmatch.1
  · exact (hlawful _ (value_mem_members he)).symm _ (ht.member (value_mem_members hq)) hmatch.2

theorem entries_trans (ht : (dict t).Comparable) (hu : (dict u).Comparable) (hlawful : ∀ x ∈ (dict s).members, x.Lawful)
    (h : ∀ e ∈ s, ∃ e' ∈ t, Eqv e.1 e'.1 ∧ Eqv e.2 e'.2) (h' : ∀ e ∈ t, ∃ e' ∈ u, Eqv e.1 e'.1 ∧ Eqv e.2 e'.2) :
    ∀ e ∈ s, ∃ e' ∈ u, Eqv e.1 e'.1 ∧ Eqv e.2 e'.2 := by
  intro e he
  obtain ⟨f, hf, hkey, hvalue⟩ := h e he
  obtain ⟨g, hg, hkey', hvalue'⟩ := h' f hf
  refine ⟨g, hg, ?_, ?_⟩
  · exact (hlawful _ (key_mem_members he)).trans _ _ (ht.member (key_mem_members hf)) (hu.member (key_mem_members hg))
      hkey hkey'
  · exact (hlawful _ (value_mem_members he)).trans _ _ (ht.member (value_mem_members hf))
      (hu.member (value_mem_members hg)) hvalue hvalue'

end Entries

section Laws

variable {a b c : Constant}

theorem Agree.symm (ha : a.Comparable) (hb : b.Comparable) (hlawful : ∀ x ∈ a.members, x.Lawful)
    (h : Agree Eqv a b) : Agree Eqv b a := by
  cases h with
  | none => exact .none
  | number hm hn => exact .number hn hm
  | str s => exact .str s
  | bytes s => exact .bytes s
  | tuple h => exact .tuple (forall₂_symm hlawful (fun x hx => hb.member hx) h)
  | list h => exact .list (forall₂_symm hlawful (fun x hx => hb.member hx) h)
  | dict hlength h => exact .dict hlength.symm (entries_symm ha hb hlawful hlength h)
  | range h => exact .range h.symm

theorem Agree.trans (hb : b.Comparable) (hc : c.Comparable) (hlawful : ∀ x ∈ a.members, x.Lawful)
    (h : Agree Eqv a b) (h' : Agree Eqv b c) : Agree Eqv a c := by
  -- a value of one kind agrees with values of that kind only, so both steps are of the same kind
  cases h with
  | number hm hn =>
    cases h' with
    | number hn' hk => exact .number (hm.trans (hn.symm.trans hn')) hk
    | _ => cases hn
  | none =>
    cases h' with
    | none => exact .none
    | number hn _ => cases hn
  | str s =>
    cases h' with
    | str => exact .str s
    | number hn _ => cases hn
  | bytes s =>
    cases h' with
    | bytes => exact .bytes s
    | number hn _ => cases hn
  | tuple h =>
    cases h' with
    | tuple h' =>
      exact .tuple (forall₂_trans hlawful (fun x hx => hb.member hx) (fun x hx => hc.member hx) h h')
    | number hn _ => cases hn
  | list h =>
    cases h' with
    | list h' =>
      exact .list (forall₂_trans hlawful (fun x hx => hb.member hx) (fun x hx => hc.member hx) h h')
    | number hn _ => cases hn
  | dict hlength h =>
    cases h' with
    | dict hlength' h' => exact .dict (hlength.trans hlength') (entries_trans hb hc hlawful h h')
    | number hn _ => cases hn
  | range h =>
    cases h' with
    | range h' => exact .range (h.trans h')
    | number hn _ => cases hn

theorem Comparable.lawful (ha : a.Comparable) : a.Lawful := by
  induction a using memberwise with
  | step a ih =>
    have hlawful : ∀ x ∈ a.members, x.Lawful := fun x hx => ih x hx (ha.member hx)
    constructor
    · intro b hb hab
      rw [eqv_iff ha.isFloat_eq hb.isFloat_eq] at hab
      exact (eqv_iff hb.isFloat_eq ha.isFloat_eq).2 (hab.symm ha hb hlawful)
    · intro b c hb hc hab hbc
      rw [eqv_iff ha.isFloat_eq hb.isFloat_eq] at hab
      rw [eqv_iff hb.isFloat_eq hc.isFloat_eq] at hbc
      exact (eqv_iff ha.isFloat_eq hc.isFloat_eq).2 (hab.trans hb hc hlawful hbc)

theorem Eqv.symm (ha : a.Comparable) (hb : b.Comparable) (h : Eqv a b) : Eqv b a := ha.lawful.symm b hb h

theorem Eqv.trans (ha : a.Comparable) (hb : b.Comparable) (hc : c.Comparable) (h : Eqv a b) (h' : Eqv b c) : Eqv a c :=
  ha.lawful.trans b c hb hc h h'

/-- **Equality in the language is an equivalence** between values without floats, as long as the keys of every dictionary
in them differ. -/
theorem eqv_equivalence : Equivalence fun a b : { c : Constant // c.Comparable } => a.val.eqv b.val = true where
  refl a := Eqv.refl a.property
  symm {a b} h := Eqv.symm a.property b.property h
  trans {a b c} h h' := Eqv.trans a.property b.property c.property h h'

/-- Two dictionaries with numbers of three types, and their entries in a different order. -/
def reordered : Constant × Constant :=
  (.dict [(.int 1, .none), (.str "k", .tuple [.bool false])], .dict [(.str "k", .tuple [.long 0]), (.bool true, .none)])

theorem eqv_equivalence_reordered : reordered.1.Comparable ∧ reordered.2.Comparable ∧
    reordered.1.eqv reordered.2 = true ∧ reordered.2.eqv reordered.1 = true := by
  have hfirst : reordered.1.Comparable := by
    refine ⟨by decide, fun entries hmem => ?_⟩
    obtain rfl : entries = [(.int 1, .none), (.str "k", .tuple [.bool false])] := by
      simpa [reordered, parts, partsOfEntries, partsOfItems] using hmem
    decide
  have hsecond : reordered.2.Comparable := by
    refine ⟨by decide, fun entries hmem => ?_⟩
    obtain rfl : entries = [(.str "k", .tuple [.long 0]), (.bool true, .none)] := by
      simpa [reordered, parts, partsOfEntries, partsOfItems] using hmem
    decide
  have heqv : reordered.1.eqv reordered.2 = true := by decide
  exact ⟨hfirst, hsecond, heqv, eqv_equivalence.symm (x := ⟨_, hfirst⟩) (y := ⟨_, hsecond⟩) heqv⟩

end Laws

end Specializer.Constant
