import Specializer.Proofs.Computation
import Specializer.Proofs.Constant.Equality

/-!
# What a dictionary collects

The builtin `dict` adds entries one by one. Whatever is added, no key of the result is equal to a later one
(`distinctKeys_addAll`). As long as equality is an equivalence on the keys, that is without floats, the result is what the
language prescribes (`Collects`): for every class of equal keys it has one entry, with the first key and the last value of
the class, and the entries stand in the order of those first keys. One insertion keeps this (`Collects.insert`), so all of
them do (`Collects.addAll`).

Where the entries are the pairs of an iteration, the first element that is no pair with a hashable key decides the
exception (`putPairs_cases`).
-/

namespace Specializer

namespace Constant

/-! ## Keys -/

theorem allHashable_iff {items : List Constant} : allHashable items = true ↔ ∀ c ∈ items, c.hashable = true := by
  induction items with
  | nil => simp [allHashable]
  | cons c items ih => simp [allHashable, ih]

theorem hashable_members {c x : Constant} (h : c.hashable = true) (hx : x ∈ c.members) : x.hashable = true := by
  cases c with
  | tuple items => exact allHashable_iff.1 h x hx
  | list items => cases h
  | dict entries => cases h
  | _ => cases hx

theorem hashable_parts {c : Constant} (h : c.hashable = true) : ∀ x ∈ c.parts, x.hashable = true := by
  induction c using memberwise with
  | step c ih =>
    intro x hx
    rw [parts_eq, List.mem_cons, List.mem_flatMap] at hx
    rcases hx with rfl | ⟨y, hy, hx⟩
    · exact h
    · exact ih y hy (hashable_members h hy) x hx

/-- Keys without floats can be compared: there is no dictionary in a key. -/
theorem comparable_of_hashable {c : Constant} (h : c.hashable = true) (hfloat : ∀ x ∈ c.parts, x.isFloat = false) :
    c.Comparable := by
  refine ⟨hfloat, fun entries hmem => ?_⟩
  cases hashable_parts h _ hmem

variable {a b c : Constant}

theorem eqv_comm (ha : a.Comparable) (hb : b.Comparable) : a.eqv b = b.eqv a :=
  Bool.eq_iff_iff.2 ⟨Eqv.symm ha hb, Eqv.symm hb ha⟩

/-- Equal values are equal to the same values. -/
theorem eqv_congr (ha : a.Comparable) (hb : b.Comparable) (hc : c.Comparable) (h : Eqv a b) : a.eqv c = b.eqv c :=
  Bool.eq_iff_iff.2 ⟨Eqv.trans hb ha hc (Eqv.symm ha hb h), Eqv.trans ha hb hc h⟩

theorem distinctKeys_iff {entries : List (Constant × Constant)} :
    DistinctKeys entries ↔ (entries.map Prod.fst).Pairwise fun a b => a.eqv b = false := by
  rw [DistinctKeys, List.pairwise_map]

end Constant

namespace Builtin

open Constant (Eqv DistinctKeys eqv_comm eqv_congr distinctKeys_iff)

/-! ## Insertion -/

section Insertion

variable {key value : Constant} {entries supplied : List (Constant × Constant)}

/-- A new key goes to the end; a key that is there keeps its place and receives the value. -/
theorem insertEntry_cases (key value : Constant) (entries : List (Constant × Constant)) :
    ((∀ e ∈ entries, e.1.eqv key = false) ∧ insertEntry key value entries = entries ++ [(key, value)]) ∨
      ∃ before known old after, entries = before ++ (known, old) :: after ∧ (∀ e ∈ before, e.1.eqv key = false) ∧
        Eqv known key ∧ insertEntry key value entries = before ++ (known, value) :: after := by
  induction entries with
  | nil => exact .inl ⟨by simp, rfl⟩
  | cons e entries ih =>
    obtain ⟨existing, old⟩ := e
    cases heq : existing.eqv key with
    | true =>
      refine .inr ⟨[], existing, old, entries, rfl, by simp, heq, ?_⟩
      simp [insertEntry, heq]
    | false =>
      have hstep : insertEntry key value ((existing, old) :: entries) = (existing, old) :: insertEntry key value entries := by
        simp [insertEntry, heq]
      rcases ih with ⟨hnew, hinsert⟩ | ⟨before, known, old', after, rfl, hbefore, hknown, hinsert⟩
      · exact .inl ⟨List.forall_mem_cons.2 ⟨heq, hnew⟩, by rw [hstep, hinsert]; rfl⟩
      · exact .inr ⟨(existing, old) :: before, known, old', after, rfl, List.forall_mem_cons.2 ⟨heq, hbefore⟩, hknown,
          by rw [hstep, hinsert]; rfl⟩

theorem insertEntry_of_new (h : ∀ e ∈ entries, e.1.eqv key = false) :
    insertEntry key value entries = entries ++ [(key, value)] := by
  rcases insertEntry_cases key value entries with ⟨-, hinsert⟩ | ⟨before, known, old, after, rfl, -, hknown, -⟩
  · exact hinsert
  · exact absurd hknown (by simp [Eqv, h (known, old) (by simp)])

/-- Insertion never makes two keys equal. -/
theorem distinctKeys_insertEntry (h : DistinctKeys entries) : DistinctKeys (insertEntry key value entries) := by
  rcases insertEntry_cases key value entries with ⟨hnew, hinsert⟩ | ⟨before, known, old, after, rfl, -, -, hinsert⟩
  · rw [hinsert]
    exact List.pairwise_append.2 ⟨h, List.pairwise_singleton .., fun e he e' he' => by
      rw [List.mem_singleton.1 he']
      exact hnew e he⟩
  · rw [hinsert]
    rw [distinctKeys_iff] at h ⊢
    simpa using h

/-- Adds entries one after the other. -/
def addAll (entries : List (Constant × Constant)) (pairs : List (Constant × Constant)) : List (Constant × Constant) :=
  pairs.foldl (fun entries p => insertEntry p.1 p.2 entries) entries

theorem distinctKeys_addAll {pairs : List (Constant × Constant)} (h : DistinctKeys entries) :
    DistinctKeys (addAll entries pairs) := by
  induction pairs generalizing entries with
  | nil => exact h
  | cons p pairs ih => exact ih (distinctKeys_insertEntry h)

/-- Entries with distinct keys are added as they are. -/
theorem addAll_of_distinctKeys {pairs : List (Constant × Constant)} (h : DistinctKeys (entries ++ pairs)) :
    addAll entries pairs = entries ++ pairs := by
  induction pairs generalizing entries with
  | nil => exact (List.append_nil entries).symm
  | cons p pairs ih =>
    have hnew : ∀ e ∈ entries, e.1.eqv p.1 = false := fun e he => (List.pairwise_append.1 h).2.2 e he p (by simp)
    have hstep : addAll entries (p :: pairs) = addAll (entries ++ [p]) pairs := by
      rw [addAll, List.foldl_cons, insertEntry_of_new hnew]
      rfl
    rw [List.append_cons] at h ⊢
    rw [hstep, ih h]

end Insertion

/-! ## What is collected -/

/-- The entries with a key that is equal to a given one, in order. -/
def withKey (key : Constant) (entries : List (Constant × Constant)) : List (Constant × Constant) :=
  entries.filter fun p => p.1.eqv key

/-- A dictionary holds what was supplied, in the sense of the language. -/
structure Collects (supplied entries : List (Constant × Constant)) : Prop where
  /-- Every key that was supplied is equal to the key of exactly one entry. -/
  covers : ∀ p ∈ supplied, entries.countP (fun e => p.1.eqv e.1) = 1
  /-- The key of an entry is the first one of its class. -/
  first : ∀ e ∈ entries, (withKey e.1 supplied).head?.map Prod.fst = some e.1
  /-- The value of an entry is the last one of its class. -/
  last : ∀ e ∈ entries, (withKey e.1 supplied).getLast?.map Prod.snd = some e.2
  /-- The entries stand in the order in which their classes came up. -/
  ordered : (entries.map fun e => supplied.findIdx fun p => p.1.eqv e.1).Pairwise (· < ·)

theorem collects_nil : Collects [] [] := ⟨by simp, by simp, by simp, by simp⟩

section Collecting

variable {key value : Constant} {entries supplied : List (Constant × Constant)}

theorem withKey_concat (k : Constant) : withKey k (supplied ++ [(key, value)]) =
    withKey k supplied ++ if key.eqv k then [(key, value)] else [] := by
  rw [withKey, List.filter_append, List.filter_singleton]
  cases key.eqv k <;> rfl

/-- The key of an entry was supplied. -/
theorem Collects.exists_supplied {e : Constant × Constant} (h : Collects supplied entries) (he : e ∈ entries) :
    ∃ p ∈ supplied, p.1 = e.1 ∧ Eqv p.1 e.1 := by
  obtain ⟨p, hp, hkey⟩ := Option.map_eq_some_iff.1 (h.first e he)
  obtain ⟨hmem, heq⟩ := List.mem_filter.1 (List.mem_of_head? hp)
  exact ⟨p, hmem, hkey, heq⟩

/-- A class that has come up keeps its place. -/
theorem Collects.findIdx_concat {e : Constant × Constant} (h : Collects supplied entries) (he : e ∈ entries)
    (p : Constant × Constant) :
    supplied.findIdx (fun p => p.1.eqv e.1) < supplied.length ∧
      (supplied ++ [p]).findIdx (fun p => p.1.eqv e.1) = supplied.findIdx fun p => p.1.eqv e.1 := by
  obtain ⟨q, hq, -, heq⟩ := h.exists_supplied he
  have hlt : supplied.findIdx (fun p => p.1.eqv e.1) < supplied.length := List.findIdx_lt_length_of_exists ⟨q, hq, heq⟩
  exact ⟨hlt, by rw [List.findIdx_append, if_pos hlt]⟩

/-- A class that has come up keeps its first key. -/
theorem Collects.first_concat {e : Constant × Constant} (h : Collects supplied entries) (he : e ∈ entries) :
    (withKey e.1 (supplied ++ [(key, value)])).head?.map Prod.fst = some e.1 := by
  obtain ⟨p, hp, hkey⟩ := Option.map_eq_some_iff.1 (h.first e he)
  rw [withKey_concat, List.head?_append, hp, Option.some_or, Option.map_some, hkey]

/-- A class keeps its last value while other keys are supplied. -/
theorem Collects.last_concat {e : Constant × Constant} (h : Collects supplied entries) (he : e ∈ entries)
    (hother : key.eqv e.1 = false) :
    (withKey e.1 (supplied ++ [(key, value)])).getLast?.map Prod.snd = some e.2 := by
  rw [withKey_concat, hother, if_neg Bool.false_ne_true, List.append_nil]
  exact h.last e he

theorem Collects.comparable {e : Constant × Constant} (h : Collects supplied entries)
    (hsupplied : ∀ p ∈ supplied, p.1.Comparable) (he : e ∈ entries) : e.1.Comparable := by
  obtain ⟨p, hp, heq, -⟩ := h.exists_supplied he
  exact heq ▸ hsupplied p hp

/-- A key that no entry has is new to what was supplied. -/
theorem Collects.unsupplied (h : Collects supplied entries) (hsupplied : ∀ p ∈ supplied, p.1.Comparable)
    (hkey : key.Comparable) (hnew : ∀ e ∈ entries, e.1.eqv key = false) : ∀ p ∈ supplied, p.1.eqv key = false := by
  intro p hp
  have hcount : 0 < entries.countP fun e => p.1.eqv e.1 := by
    rw [h.covers p hp]
    decide
  obtain ⟨e, he, heq⟩ := List.countP_pos_iff.1 hcount
  rw [eqv_congr (hsupplied p hp) (h.comparable hsupplied he) hkey heq]
  exact hnew e he

/-- A new key opens a class of its own. -/
theorem withKey_concat_of_new (hkey : key.Comparable) (hnew : ∀ p ∈ supplied, p.1.eqv key = false) :
    withKey key (supplied ++ [(key, value)]) = [(key, value)] := by
  have hself : key.eqv key = true := Eqv.refl hkey
  have hnone : withKey key supplied = [] := List.filter_eq_nil_iff.2 fun p hp => by simp [hnew p hp]
  rw [withKey_concat, hnone, hself]
  rfl

/-- The class of a new key comes after all others. -/
theorem findIdx_concat_of_new (hkey : key.Comparable) (hnew : ∀ p ∈ supplied, p.1.eqv key = false) :
    (supplied ++ [(key, value)]).findIdx (fun p => p.1.eqv key) = supplied.length := by
  have hself : key.eqv key = true := Eqv.refl hkey
  have hnone : supplied.findIdx (fun p => p.1.eqv key) = supplied.length := List.findIdx_eq_length.2 hnew
  simp [List.findIdx_append, hnone, List.findIdx_cons, hself]

theorem Collects.concat_new (h : Collects supplied entries) (hsupplied : ∀ p ∈ supplied, p.1.Comparable)
    (hkey : key.Comparable) (hnew : ∀ e ∈ entries, e.1.eqv key = false) :
    Collects (supplied ++ [(key, value)]) (entries ++ [(key, value)]) := by
  have hnew' : ∀ e ∈ entries, key.eqv e.1 = false := by
    intro e he
    rw [eqv_comm hkey (h.comparable hsupplied he)]
    exact hnew e he
  have hunsupplied := h.unsupplied hsupplied hkey hnew
  have hself : key.eqv key = true := Eqv.refl hkey
  constructor
  · intro p hp
    rw [List.countP_append, List.countP_singleton]
    rcases List.mem_append.1 hp with hp | hp
    · rw [h.covers p hp, hunsupplied p hp]
      rfl
    · obtain rfl := List.mem_singleton.1 hp
      have hnone : entries.countP (fun e => key.eqv e.1) = 0 :=
        List.countP_eq_zero.2 fun e he => by simp [hnew' e he]
      rw [hnone, hself]
      rfl
  · intro e he
    rcases List.mem_append.1 he with he | he
    · exact h.first_concat he
    · obtain rfl := List.mem_singleton.1 he
      rw [withKey_concat_of_new hkey hunsupplied]
      rfl
  · intro e he
    rcases List.mem_append.1 he with he | he
    · exact h.last_concat he (hnew' e he)
    · obtain rfl := List.mem_singleton.1 he
      rw [withKey_concat_of_new hkey hunsupplied]
      rfl
  · have hplaces : entries.map (fun e => (supplied ++ [(key, value)]).findIdx fun p => p.1.eqv e.1) =
        entries.map fun e => supplied.findIdx fun p => p.1.eqv e.1 :=
      List.map_congr_left fun e he => (h.findIdx_concat he _).2
    rw [List.map_append, hplaces, List.map_singleton, findIdx_concat_of_new hkey hunsupplied]
    refine List.pairwise_append.2 ⟨h.ordered, List.pairwise_singleton .., fun i hi j hj => ?_⟩
    obtain ⟨e, he, rfl⟩ := List.mem_map.1 hi
    rw [List.mem_singleton.1 hj]
    exact (h.findIdx_concat he (key, value)).1

/-- A key that is equal to the one of an entry is of the same class. -/
theorem Collects.eqv_known {known old : Constant} (h : Collects supplied entries)
    (hsupplied : ∀ p ∈ supplied, p.1.Comparable) (hkey : key.Comparable) (hmem : (known, old) ∈ entries)
    (hknown : Eqv known key) : ∀ e ∈ entries, key.eqv e.1 = known.eqv e.1 := by
  have hknown' : known.Comparable := h.comparable hsupplied hmem
  exact fun e he => eqv_congr hkey hknown' (h.comparable hsupplied he) (hknown.symm hknown' hkey)

section Known

variable {before after : List (Constant × Constant)} {known old : Constant}

/-- The other entries belong to other classes. -/
theorem Collects.other_classes (h : Collects supplied (before ++ (known, old) :: after))
    (hsupplied : ∀ p ∈ supplied, p.1.Comparable) (hdistinct : DistinctKeys (before ++ (known, old) :: after))
    (hkey : key.Comparable) (hknown : Eqv known key) (hbefore : ∀ e ∈ before, e.1.eqv key = false) :
    ∀ e ∈ before ++ after, e ∈ before ++ (known, old) :: after ∧ key.eqv e.1 = false := by
  intro e he
  have hmem : e ∈ before ++ (known, old) :: after := List.perm_middle.mem_iff.2 (List.mem_cons_of_mem _ he)
  refine ⟨hmem, ?_⟩
  rcases List.mem_append.1 he with he | he
  · rw [eqv_comm hkey (h.comparable hsupplied hmem)]
    exact hbefore e he
  · rw [h.eqv_known hsupplied hkey List.mem_append_cons_self hknown e hmem]
    exact (List.pairwise_cons.1 (List.pairwise_append.1 hdistinct).2.1).1 e he

theorem Collects.concat_known (h : Collects supplied (before ++ (known, old) :: after))
    (hsupplied : ∀ p ∈ supplied, p.1.Comparable) (hdistinct : DistinctKeys (before ++ (known, old) :: after))
    (hkey : key.Comparable) (hknown : Eqv known key) (hbefore : ∀ e ∈ before, e.1.eqv key = false) :
    Collects (supplied ++ [(key, value)]) (before ++ (known, value) :: after) := by
  have hmem : (known, old) ∈ before ++ (known, old) :: after := List.mem_append_cons_self
  have hsame := h.eqv_known hsupplied hkey hmem hknown
  have hother := h.other_classes hsupplied hdistinct hkey hknown hbefore
  constructor
  · intro p hp
    have hcount : (before ++ (known, value) :: after).countP (fun e => p.1.eqv e.1) =
        (before ++ (known, old) :: after).countP fun e => p.1.eqv e.1 := by
      simp [List.countP_append, List.countP_cons]
    rw [hcount]
    rcases List.mem_append.1 hp with hp | hp
    · exact h.covers p hp
    · obtain rfl := List.mem_singleton.1 hp
      obtain ⟨q, hq, hq', -⟩ := h.exists_supplied hmem
      rw [← h.covers q hq, hq']
      exact List.countP_congr fun e he => by rw [hsame e he]
  · intro e he
    rcases List.mem_cons.1 (List.perm_middle.mem_iff.1 he) with rfl | he
    · have hfirst : (withKey known (supplied ++ [(key, value)])).head?.map Prod.fst = some known := h.first_concat hmem
      exact hfirst
    · exact h.first_concat (hother e he).1
  · intro e he
    rcases List.mem_cons.1 (List.perm_middle.mem_iff.1 he) with rfl | he
    · have hclass : key.eqv known = true := hknown.symm (h.comparable hsupplied hmem) hkey
      rw [withKey_concat, hclass, if_pos rfl, List.getLast?_append]
      rfl
    · exact h.last_concat (hother e he).1 (hother e he).2
  · have hplaces : (before ++ (known, value) :: after).map
        (fun e => (supplied ++ [(key, value)]).findIdx fun p => p.1.eqv e.1) =
        (before ++ (known, old) :: after).map fun e => supplied.findIdx fun p => p.1.eqv e.1 := by
      rw [List.map_append, List.map_cons, List.map_append, List.map_cons, (h.findIdx_concat hmem _).2,
        List.map_congr_left fun e he => (h.findIdx_concat (hother e (by simp [he])).1 _).2,
        List.map_congr_left fun e he => (h.findIdx_concat (hother e (by simp [he])).1 _).2]
    rw [hplaces]
    exact h.ordered

end Known

/-- **One insertion.** -/
theorem Collects.insert (h : Collects supplied entries) (hsupplied : ∀ p ∈ supplied, p.1.Comparable)
    (hdistinct : DistinctKeys entries) (hkey : key.Comparable) :
    Collects (supplied ++ [(key, value)]) (insertEntry key value entries) := by
  rcases insertEntry_cases key value entries with ⟨hnew, hinsert⟩ |
    ⟨before, known, old, after, rfl, hbefore, hknown, hinsert⟩
  · rw [hinsert]
    exact h.concat_new hsupplied hkey hnew
  · rw [hinsert]
    exact h.concat_known hsupplied hdistinct hkey hknown hbefore

theorem Collects.addAll {pairs : List (Constant × Constant)} (h : Collects supplied entries)
    (hdistinct : DistinctKeys entries) (hkeys : ∀ p ∈ supplied ++ pairs, p.1.Comparable) :
    Collects (supplied ++ pairs) (addAll entries pairs) := by
  induction pairs generalizing supplied entries with
  | nil => simpa [Builtin.addAll] using h
  | cons p pairs ih =>
    rw [List.append_cons] at hkeys ⊢
    have hstep : Collects (supplied ++ [p]) (insertEntry p.1 p.2 entries) :=
      h.insert (fun q hq => hkeys q (by simp [hq])) hdistinct (hkeys p (by simp))
    exact ih hstep (distinctKeys_insertEntry hdistinct) hkeys

/-- Whatever is supplied is collected, as long as the keys can be compared. -/
theorem collects_addAll (hkeys : ∀ p ∈ supplied, p.1.Comparable) : Collects supplied (addAll [] supplied) :=
  collects_nil.addAll .nil hkeys

end Collecting

/-! ## Pairs of an iteration -/

section Pairs

variable {version : Version} {index : Nat} {element : Constant} {p : Constant × Constant} {exception : RaisedException}
  {entries pairs : List (Constant × Constant)} {items before rest : List Constant}

/-- An element is a pair of a hashable key and a value. -/
def IsPair (version : Version) (element : Constant) (p : Constant × Constant) : Prop :=
  element.elements? version = some [p.1, p.2] ∧ p.1.hashable = true

theorem IsPair.unique {p' : Constant × Constant} (h : IsPair version element p) (h' : IsPair version element p') :
    p = p' := by
  have helements := h.1.symm.trans h'.1
  simp only [Option.some.injEq, List.cons.injEq, and_true] at helements
  exact Prod.ext helements.1 helements.2

/-- An element is no such pair, and what is raised for it at its position. -/
inductive Offends (version : Version) (index : Nat) (element : Constant) : RaisedException → Prop
  | notIterable : element.elements? version = none → Offends version index element
      ⟨.typeError, s!"cannot convert dictionary update sequence element #{index} to a sequence"⟩
  | wrongLength {items : List Constant} : element.elements? version = some items → items.length ≠ 2 →
      Offends version index element
        ⟨.valueError, s!"dictionary update sequence element #{index} has length {items.length}; 2 is required"⟩
  | unhashable {key value : Constant} : element.elements? version = some [key, value] → key.hashable = false →
      Offends version index element ⟨.typeError, s!"unhashable type: '{key.typeName version}'"⟩

theorem isPair_or_offends (version : Version) (index : Nat) (element : Constant) :
    (∃ p, IsPair version element p) ∨ ∃ exception, Offends version index element exception := by
  cases helements : element.elements? version with
  | none => exact .inr ⟨_, .notIterable helements⟩
  | some items =>
    by_cases hlength : items.length = 2
    · obtain ⟨key, value, rfl⟩ := List.length_eq_two.1 hlength
      cases hhash : key.hashable with
      | true => exact .inl ⟨(key, value), helements, hhash⟩
      | false => exact .inr ⟨_, .unhashable helements hhash⟩
    · exact .inr ⟨_, .wrongLength helements hlength⟩

theorem putPairs_of_isPair (h : IsPair version element p) :
    putPairs version index entries (element :: rest) = putPairs version (index + 1) (insertEntry p.1 p.2 entries) rest := by
  simp only [putPairs, h.1, putEntry, h.2, if_true, except_pure, ok_bind]

theorem putPairs_of_offends (h : Offends version index element exception) :
    putPairs version index entries (element :: rest) = .error (.raise exception) := by
  cases h with
  | notIterable h =>
    simp only [putPairs, h]
    rfl
  | wrongLength h hlength =>
    rename_i items
    simp only [putPairs, h]
    rcases items with _ | ⟨_, _ | ⟨_, _ | ⟨_, _⟩⟩⟩
    · rfl
    · rfl
    · exact absurd rfl hlength
    · rfl
  | unhashable h hhash =>
    simp only [putPairs, h, putEntry, hhash]
    rfl

theorem putPairs_of_pairs (h : List.Forall₂ (IsPair version) items pairs) :
    putPairs version index entries items = .ok (addAll entries pairs) := by
  induction h generalizing index entries with
  | nil => rfl
  | cons hp _ ih =>
    rw [putPairs_of_isPair hp, ih]
    rfl

/-- The elements before the first offending one do not matter, nor do those after it. -/
theorem putPairs_of_first (hbefore : ∀ x ∈ before, ∃ p, IsPair version x p)
    (h : Offends version (index + before.length) element exception) :
    putPairs version index entries (before ++ element :: rest) = .error (.raise exception) := by
  induction before generalizing index entries with
  | nil => exact putPairs_of_offends h
  | cons x before ih =>
    obtain ⟨⟨p, hp⟩, hbefore⟩ := List.forall_mem_cons.1 hbefore
    rw [List.cons_append, putPairs_of_isPair hp]
    refine ih hbefore ?_
    rwa [List.length_cons, ← Nat.add_assoc, Nat.add_right_comm] at h

/-- An iteration yields pairs only, or has a first element that is none. -/
theorem pairs_or_first (version : Version) (index : Nat) (items : List Constant) :
    (∃ pairs, List.Forall₂ (IsPair version) items pairs) ∨
      ∃ before element after exception, items = before ++ element :: after ∧ (∀ x ∈ before, ∃ p, IsPair version x p) ∧
        Offends version (index + before.length) element exception := by
  induction items generalizing index with
  | nil => exact .inl ⟨[], .nil⟩
  | cons x items ih =>
    rcases isPair_or_offends version index x with ⟨p, hp⟩ | ⟨exception, hoffends⟩
    · rcases ih (index + 1) with ⟨pairs, hpairs⟩ | ⟨before, element, after, exception, rfl, hbefore, hoffends⟩
      · exact .inl ⟨p :: pairs, .cons hp hpairs⟩
      · refine .inr ⟨x :: before, element, after, exception, rfl, List.forall_mem_cons.2 ⟨⟨p, hp⟩, hbefore⟩, ?_⟩
        rwa [List.length_cons, ← Nat.add_assoc, Nat.add_right_comm]
    · exact .inr ⟨[], x, items, exception, rfl, by simp, hoffends⟩

end Pairs

/-! ## The builtin -/

section Evaluation

variable {version : Version} {args : BoundArguments Constant} {entries supplied : List (Constant × Constant)}
  {items : List Constant} {value : Constant}

/-- Keyword arguments as entries. -/
def keywordEntries (args : BoundArguments Constant) : List (Constant × Constant) :=
  args.starDict.map fun k => (.str k.1, k.2)

theorem putKeywords_eq (entries : List (Constant × Constant)) (keywords : List (String × Constant)) :
    putKeywords version entries keywords = .ok (addAll entries (keywords.map fun k => (.str k.1, k.2))) := by
  induction keywords generalizing entries with
  | nil => rfl
  | cons k keywords ih =>
    have hput : putEntry version entries (.str k.1) k.2 = .ok (insertEntry (.str k.1) k.2 entries) := rfl
    rw [putKeywords, hput, ok_bind, ih]
    rfl

/-- The positional argument of `dict` is missing, or a dictionary with distinct hashable keys, or another value that can be
iterated over. -/
inductive IsSource (version : Version) : Option Constant → Prop
  | absent : IsSource version none
  | dict {entries : List (Constant × Constant)} : (∀ e ∈ entries, e.1.hashable = true) → DistinctKeys entries →
      IsSource version (some (.dict entries))
  | iterable {value : Constant} {items : List Constant} : (∀ entries, value ≠ .dict entries) →
      value.elements? version = some items → IsSource version (some value)

/-- The entries that a positional argument supplies. -/
inductive Supplies (version : Version) : Option Constant → List (Constant × Constant) → Prop
  | nothing : Supplies version none []
  | entries (entries : List (Constant × Constant)) : Supplies version (some (.dict entries)) entries
  | pairs {value : Constant} {items : List Constant} {pairs : List (Constant × Constant)} :
      (∀ entries, value ≠ .dict entries) → value.elements? version = some items →
      List.Forall₂ (IsPair version) items pairs → Supplies version (some value) pairs

theorem Supplies.unique {source : Option Constant} {supplied' : List (Constant × Constant)}
    (h : Supplies version source supplied) (h' : Supplies version source supplied') : supplied = supplied' := by
  cases h with
  | nothing =>
    cases h'
    rfl
  | entries =>
    cases h' with
    | entries => rfl
    | pairs hdict => exact absurd rfl (hdict _)
  | pairs hdict helements hpairs =>
    cases h' with
    | entries => exact absurd rfl (hdict _)
    | pairs _ helements' hpairs' =>
      obtain rfl := Option.some.inj (helements.symm.trans helements')
      have hunique : Relator.RightUnique (IsPair version) := fun _ _ _ => IsPair.unique
      exact List.right_unique_forall₂' hunique hpairs hpairs'

/-- The first offending element of an iteration decides the exception. -/
def Refuses (version : Version) (value : Constant) (exception : RaisedException) : Prop :=
  (∀ entries, value ≠ .dict entries) ∧ isLongRange value = false ∧ ∃ before element after,
    value.elements? version = some (before ++ element :: after) ∧ (∀ x ∈ before, ∃ p, IsPair version x p) ∧
      Offends version before.length element exception

theorem dict_of_absent (h : args.get? 0 = none) : dict args version = .ok (.dict (addAll [] (keywordEntries args))) := by
  rw [dict, h]
  simp only [except_pure, ok_bind, putKeywords_eq]
  rfl

theorem dict_of_dict (h : args.get? 0 = some (.dict entries)) :
    dict args version = .ok (.dict (addAll entries (keywordEntries args))) := by
  rw [dict, h]
  simp only [except_pure, ok_bind, putKeywords_eq]
  rfl

theorem dict_of_iterable (h : args.get? 0 = some value) (hdict : ∀ entries, value ≠ .dict entries) :
    dict args version = iterate version value >>= fun items => putPairs version 0 [] items >>= fun entries =>
      .ok (.dict (addAll entries (keywordEntries args))) := by
  rw [dict, h]
  simp only [except_pure, putKeywords_eq, ok_bind]
  cases value with
  | dict entries => exact absurd rfl (hdict entries)
  | _ => rfl

theorem dict_of_longRange (h : args.get? 0 = some value) (hlong : isLongRange value = true) :
    dict args version = .error .decline := by
  have hdict : ∀ entries, value ≠ .dict entries := by
    rintro entries rfl
    cases hlong
  rw [dict_of_iterable h hdict, iterate, if_pos hlong]
  rfl

theorem iterate_of_elements (hlong : isLongRange value = false) (helements : value.elements? version = some items) :
    iterate version value = .ok items := by
  simp only [iterate, hlong, Bool.false_eq_true, if_false, helements]
  rfl

theorem dict_of_refuses {exception : RaisedException} (h : args.get? 0 = some value)
    (hrefuses : Refuses version value exception) : dict args version = .error (.raise exception) := by
  obtain ⟨hdict, hlong, before, element, after, helements, hbefore, hoffends⟩ := hrefuses
  have hfirst : putPairs version 0 [] (before ++ element :: after) = .error (.raise exception) :=
    putPairs_of_first hbefore (by rwa [Nat.zero_add])
  rw [dict_of_iterable h hdict, iterate_of_elements hlong helements, ok_bind, hfirst]
  rfl

theorem addAll_append (pairs pairs' : List (Constant × Constant)) :
    addAll entries (pairs ++ pairs') = addAll (addAll entries pairs) pairs' := List.foldl_append

theorem hashable_of_pairs {pairs : List (Constant × Constant)} (h : List.Forall₂ (IsPair version) items pairs) :
    ∀ p ∈ pairs, p.1.hashable = true := by
  induction h with
  | nil => simp
  | cons hp _ ih => exact List.forall_mem_cons.2 ⟨hp.2, ih⟩

/-- The three ways a call of `dict` can go. -/
theorem dict_outcome (h : IsSource version (args.get? 0)) :
    (∃ supplied, Supplies version (args.get? 0) supplied ∧ (∀ p ∈ supplied, p.1.hashable = true) ∧
      dict args version = .ok (.dict (addAll [] (supplied ++ keywordEntries args)))) ∨
    (∃ value exception, args.get? 0 = some value ∧ Refuses version value exception ∧
      dict args version = .error (.raise exception)) ∨
    ∃ value, args.get? 0 = some value ∧ isLongRange value = true ∧ dict args version = .error .decline := by
  generalize hsource : args.get? 0 = source at h
  cases h with
  | absent => exact .inl ⟨[], .nothing, by simp, dict_of_absent hsource⟩
  | dict hhash hdistinct =>
    rename_i entries
    have hadd : addAll [] entries = entries := addAll_of_distinctKeys hdistinct
    refine .inl ⟨entries, .entries entries, hhash, ?_⟩
    rw [dict_of_dict hsource, addAll_append, hadd]
  | iterable hdict helements =>
    rename_i value items
    cases hlong : isLongRange value with
    | true => exact .inr (.inr ⟨value, rfl, hlong, dict_of_longRange hsource hlong⟩)
    | false =>
      rcases pairs_or_first version 0 items with
        ⟨pairs, hpairs⟩ | ⟨before, element, after, exception, rfl, hbefore, hoffends⟩
      · refine .inl ⟨pairs, .pairs hdict helements hpairs, hashable_of_pairs hpairs, ?_⟩
        rw [dict_of_iterable hsource hdict, iterate_of_elements hlong helements, ok_bind, putPairs_of_pairs hpairs,
          ok_bind, addAll_append]
      · rw [Nat.zero_add] at hoffends
        have hrefuses : Refuses version value exception :=
          ⟨hdict, hlong, before, element, after, helements, hbefore, hoffends⟩
        exact .inr (.inl ⟨value, exception, rfl, hrefuses, dict_of_refuses hsource hrefuses⟩)

/-- A dictionary that `dict` gives holds what is supplied. -/
theorem dict_ok {result : Constant} (h : IsSource version (args.get? 0)) (hrun : dict args version = .ok result) :
    ∃ entries supplied, result = .dict entries ∧ DistinctKeys entries ∧ Supplies version (args.get? 0) supplied ∧
      ((∀ p ∈ supplied ++ keywordEntries args, ∀ x ∈ p.1.parts, x.isFloat = false) →
        Collects (supplied ++ keywordEntries args) entries) := by
  rcases dict_outcome h with ⟨supplied, hsupplies, hhash, hok⟩ | ⟨_, _, _, _, hraise⟩ | ⟨_, _, _, hdecline⟩
  · cases hok.symm.trans hrun
    refine ⟨_, supplied, rfl, distinctKeys_addAll .nil, hsupplies, fun hfloat => collects_addAll fun p hp => ?_⟩
    refine Constant.comparable_of_hashable ?_ (hfloat p hp)
    rcases List.mem_append.1 hp with hp | hp
    · exact hhash p hp
    · obtain ⟨k, -, rfl⟩ := List.mem_map.1 hp
      rfl
  · cases hraise.symm.trans hrun
  · cases hdecline.symm.trans hrun

theorem dict_raise_iff {exception : RaisedException} (h : IsSource version (args.get? 0)) :
    dict args version = .error (.raise exception) ↔
      ∃ value, args.get? 0 = some value ∧ Refuses version value exception := by
  constructor
  · intro hrun
    rcases dict_outcome h with ⟨_, _, _, hok⟩ | ⟨value, _, hvalue, hrefuses, hraise⟩ | ⟨_, _, _, hdecline⟩
    · cases hok.symm.trans hrun
    · cases hraise.symm.trans hrun
      exact ⟨value, hvalue, hrefuses⟩
    · cases hdecline.symm.trans hrun
  · rintro ⟨value, hvalue, hrefuses⟩
    exact dict_of_refuses hvalue hrefuses

theorem dict_decline_iff (h : IsSource version (args.get? 0)) :
    dict args version = .error .decline ↔ ∃ value, args.get? 0 = some value ∧ isLongRange value = true := by
  constructor
  · intro hrun
    rcases dict_outcome h with ⟨_, _, _, hok⟩ | ⟨_, _, _, _, hraise⟩ | ⟨value, hvalue, hlong, -⟩
    · cases hok.symm.trans hrun
    · cases hraise.symm.trans hrun
    · exact ⟨value, hvalue, hlong⟩
  · rintro ⟨value, hvalue, hlong⟩
    exact dict_of_longRange hvalue hlong

end Evaluation

/-- **Evaluating `dict` gives the dictionary of the language.** If it gives a dictionary, no key in it is equal to a later
one, and as long as the keys hold no floats it collects what the positional argument and then the keywords supply. It
raises exactly if the positional argument yields an element that is no pair with a hashable key, and the first such
element alone decides the exception; it declines exactly for ranges too long to be spelled out. -/
theorem dict_evaluate_collects (version : Version) (args : BoundArguments Constant)
    (hsource : IsSource version (args.get? 0)) :
    (∀ result, PureBuiltin.dict.evaluate args version = .ok result → ∃ entries supplied, result = .dict entries ∧
      DistinctKeys entries ∧ Supplies version (args.get? 0) supplied ∧
        ((∀ p ∈ supplied ++ keywordEntries args, ∀ x ∈ p.1.parts, x.isFloat = false) →
          Collects (supplied ++ keywordEntries args) entries)) ∧
    (∀ exception, PureBuiltin.dict.evaluate args version = .error (.raise exception) ↔
      ∃ value, args.get? 0 = some value ∧ Refuses version value exception) ∧
    (PureBuiltin.dict.evaluate args version = .error .decline ↔
      ∃ value, args.get? 0 = some value ∧ isLongRange value = true) :=
  ⟨fun _ => dict_ok hsource, fun _ => dict_raise_iff hsource, dict_decline_iff hsource⟩

/-- The pairs `(1, 'a')`, `('k', None)` and `(True, 'b')`, and the keyword `k=0`. -/
def overlappingPairs : BoundArguments Constant where
  values := [some (.list [.tuple [.int 1, .str "a"], .tuple [.str "k", .none], .tuple [.bool true, .str "b"]])]
  starDict := [("k", .int 0)]

theorem dict_evaluate_collects_overlapping : IsSource .python3 (overlappingPairs.get? 0) ∧ ∃ entries supplied,
    PureBuiltin.dict.evaluate overlappingPairs .python3 = .ok (.dict entries) ∧
      Supplies .python3 (overlappingPairs.get? 0) supplied ∧
        Collects (supplied ++ keywordEntries overlappingPairs) entries := by
  have hsource : IsSource .python3 (overlappingPairs.get? 0) := .iterable nofun rfl
  have hrun : PureBuiltin.dict.evaluate overlappingPairs .python3 =
      .ok (.dict [(.int 1, .str "b"), (.str "k", .int 0)]) := rfl
  obtain ⟨entries, supplied, hentries, -, hsupplies, hcollects⟩ :=
    (dict_evaluate_collects .python3 overlappingPairs hsource).1 _ hrun
  have hpairs : Supplies .python3 (overlappingPairs.get? 0)
      [(.int 1, .str "a"), (.str "k", .none), (.bool true, .str "b")] :=
    .pairs nofun rfl (.cons ⟨rfl, rfl⟩ (.cons ⟨rfl, rfl⟩ (.cons ⟨rfl, rfl⟩ .nil)))
  refine ⟨hsource, entries, supplied, by rw [hrun, hentries], hsupplies, hcollects ?_⟩
  rw [hsupplies.unique hpairs]
  decide

end Builtin

end Specializer
