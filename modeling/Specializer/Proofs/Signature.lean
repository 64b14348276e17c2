import Mathlib.Data.List.Basic
import Specializer.Proofs.Computation
import Specializer.Signature.Table

/-!
# What binding does

Binding gives every argument exactly one place, gives every parameter a place, and leaves no parameter without a default
empty (`Signature.binds_of_bind`). If the keywords stand in the order of the parameters, the bound arguments are those
of the call in the order of their evaluation (`Signature.bindsInOrder_of_bind`).

Binding never looks at an argument. So it makes no difference whether nodes are bound and then read, or the constants
they hold are bound (`Signature.bind_map`).
-/

namespace Specializer

namespace BoundArguments

variable {α β : Type}

/-- All arguments, by parameter first. -/
def all (args : BoundArguments α) : List α := args.values.filterMap id ++ (args.starList ++ args.starDict.map (·.2))

/-- The arguments with something else in the place of each. -/
def map (f : α → β) (args : BoundArguments α) : BoundArguments β where
  values := args.values.map (Option.map f)
  starList := args.starList.map f
  starDict := args.starDict.map (Prod.map id f)

theorem get?_map (f : α → β) (args : BoundArguments α) (i : Nat) : (args.map f).get? i = (args.get? i).map f := by
  simp only [get?, map, List.getElem?_map]
  rcases args.values[i]? with _ | _ | a <;> rfl

end BoundArguments

namespace Signature

variable {α : Type} {s : Signature} {positional : List α} {keywords : List (String × α)} {args args' : BoundArguments α}

/-- Filling an empty place adds one value. -/
theorem filterMap_set_perm {a : α} : ∀ {values : List (Option α)} {i : Nat}, values[i]? = some none →
    ((values.set i (some a)).filterMap id).Perm (a :: values.filterMap id)
  | [], _, h => by simp at h
  | v :: values, 0, h => by
    obtain rfl : v = none := by simpa using h
    simp
  | v :: values, i + 1, h => by
    have ih : ((values.set i (some a)).filterMap id).Perm (a :: values.filterMap id) :=
      filterMap_set_perm (by simpa using h)
    cases v with
    | none => simpa using ih
    | some b =>
      simp only [List.set_cons_succ, List.filterMap_cons, id]
      exact (ih.cons b).trans (List.Perm.swap a b _)

theorem bindPositional_all (s : Signature) (positional : List α) : (s.bindPositional positional).all = positional := by
  have hvalues : ((List.range s.params.length).map fun i => positional[i]?).filterMap id =
      positional.take s.params.length := by
    generalize s.params.length = k
    induction positional generalizing k with
    | nil => simp
    | cons a rest ih =>
      cases k with
      | zero => simp
      | succ k =>
        rw [List.range_succ_eq_map]
        simp only [List.map_cons, List.map_map, List.getElem?_cons_zero, List.filterMap_cons, id, List.take_succ_cons]
        congr 1
        exact ih k
  rw [BoundArguments.all, bindPositional, hvalues]
  simp

theorem bindPositional_get? (s : Signature) (positional : List α) (i : Nat) :
    (s.bindPositional positional).get? i = if i < s.params.length then positional[i]? else none := by
  by_cases hi : i < s.params.length
  · simp [BoundArguments.get?, bindPositional, hi]
  · simp [BoundArguments.get?, bindPositional, hi]

theorem position?_lt {keyword : String} {i : Nat} (h : s.position? keyword = some i) : i < s.params.length := by
  unfold position? at h
  split at h
  · cases h
  · exact (List.findIdx?_eq_some_iff_findIdx_eq.1 h).1

/-- Binding one keyword adds its value, in the place of a parameter or beyond them. -/
theorem bindKeyword_eq_ok {keyword : String × α} (hlen : args.values.length = s.params.length)
    (h : s.bindKeyword args keyword = .ok args') :
    args'.values.length = s.params.length ∧ args'.all.Perm (keyword.2 :: args.all) ∧
      args'.starDict.length ≤ args.starDict.length + 1 := by
  unfold bindKeyword at h
  split at h
  · next i hi =>
    split at h
    · cases h
    · next hempty =>
      cases h
      have hlt : i < args.values.length := hlen ▸ position?_lt hi
      have hnone : args.values[i]? = some none := by
        rw [BoundArguments.get?] at hempty
        cases hv : args.values[i]? with
        | none => simp [hlt] at hv
        | some v =>
          cases v with
          | none => rfl
          | some a => simp [hv] at hempty
      refine ⟨by simpa using hlen, ?_, by simp⟩
      exact (filterMap_set_perm hnone).append_right _
  · split at h
    · cases h
      refine ⟨hlen, ?_, by simp⟩
      simp only [BoundArguments.all, List.map_append, List.map_cons, List.map_nil]
      rw [← List.append_assoc, ← List.append_assoc, ← List.append_assoc]
      exact List.perm_append_singleton ..
    · cases h

theorem foldlM_bindKeyword (hlen : args.values.length = s.params.length)
    (h : keywords.foldlM s.bindKeyword args = .ok args') :
    args'.values.length = s.params.length ∧ args'.all.Perm (args.all ++ keywords.map (·.2)) ∧
      args'.starDict.length ≤ args.starDict.length + keywords.length := by
  induction keywords generalizing args with
  | nil =>
    cases h
    exact ⟨hlen, by simp, by simp⟩
  | cons keyword rest ih =>
    rw [List.foldlM_cons] at h
    obtain ⟨args₁, h₁, h⟩ := bind_eq_ok_iff.1 h
    obtain ⟨hlen₁, hperm₁, hdict₁⟩ := bindKeyword_eq_ok hlen h₁
    obtain ⟨hlen', hperm, hdict⟩ := ih hlen₁ h
    refine ⟨hlen', ?_, by rw [List.length_cons]; omega⟩
    refine hperm.trans ((hperm₁.append_right _).trans ?_)
    rw [List.map_cons, List.cons_append]
    exact List.perm_middle.symm

/-- Binding succeeds if keywords are taken, the positional arguments fit, every keyword can be bound, and no required
parameter is left empty. -/
theorem bind_ok_iff : s.bind positional keywords = .ok args ↔
    (keywords = [] ∨ s.acceptsKeywords = true) ∧ (positional.length ≤ s.params.length ∨ s.starList = true) ∧
      keywords.foldlM s.bindKeyword (s.bindPositional positional) = .ok args ∧
      (args.values.take s.minArgs).any Option.isNone = false := by
  unfold bind
  cases hkeywords : !keywords.isEmpty && !s.acceptsKeywords with
  | true =>
    have hnot : ¬ (keywords = [] ∨ s.acceptsKeywords = true) := by simpa using hkeywords
    simp only [if_true, except_throw, error_bind, reduceCtorEq, hnot, false_and]
  | false =>
    have htaken : keywords = [] ∨ s.acceptsKeywords = true := by simpa [or_iff_not_imp_left] using hkeywords
    cases hcount : decide (s.params.length < positional.length) && !s.starList with
    | true =>
      have hnot : ¬ (positional.length ≤ s.params.length ∨ s.starList = true) := by simpa using hcount
      simp only [Bool.false_eq_true, if_false, if_true, except_throw, error_bind, reduceCtorEq, hnot, false_and, and_false]
    | false =>
      have hfits : positional.length ≤ s.params.length ∨ s.starList = true := by
        simpa [or_iff_not_imp_left] using hcount
      simp only [Bool.false_eq_true, if_false, htaken, hfits, true_and, bind_eq_ok_iff]
      constructor
      · rintro ⟨args₁, hfold, hrest⟩
        cases hfull : (args₁.values.take s.minArgs).any Option.isNone with
        | true => simp [hfull] at hrest
        | false =>
          obtain rfl : args₁ = args := by simpa [hfull] using hrest
          exact ⟨hfold, hfull⟩
      · rintro ⟨hfold, hfull⟩
        exact ⟨args, hfold, by simp [hfull]⟩

/-- What a successful binding has done. -/
structure Binds (s : Signature) (positional : List α) (keywords : List (String × α)) (args : BoundArguments α) :
    Prop where
  length : args.values.length = s.params.length
  perm : args.all.Perm (positional ++ keywords.map (·.2))
  starDict : args.starDict.length ≤ keywords.length
  required : ∀ i < s.minArgs, ∀ v, args.values[i]? = some v → v ≠ none
  noKeywords : s.acceptsKeywords = false → keywords = []

/-- **Binding gives every argument exactly one place and fills what has to be filled.** -/
theorem binds_of_bind (h : s.bind positional keywords = .ok args) : s.Binds positional keywords args := by
  obtain ⟨hkeywords, -, hfold, hfull⟩ := bind_ok_iff.1 h
  obtain ⟨hlen, hperm, hdict⟩ := foldlM_bindKeyword (by simp [bindPositional]) hfold
  rw [bindPositional_all] at hperm
  refine ⟨hlen, hperm, by simpa [bindPositional] using hdict, fun i hi v hv hnone => ?_, fun hacc => ?_⟩
  · subst hnone
    have hmem : none ∈ args.values.take s.minArgs :=
      List.mem_of_getElem? ((List.getElem?_take_of_lt hi).trans hv)
    simpa using List.any_eq_false.1 hfull none hmem
  · simpa [hacc] using hkeywords

/-- A parameter without a default has an argument. -/
theorem Binds.get?_required (h : s.Binds positional keywords args) {i : Nat} (hi : i < s.minArgs) :
    ∃ a, args.get? i = some a := by
  have hlt : i < args.values.length := by
    rw [h.length]
    exact Nat.lt_of_lt_of_le hi (Nat.sub_le ..)
  have hv : args.values[i]? = some args.values[i] := List.getElem?_eq_getElem hlt
  obtain ⟨a, ha⟩ := Option.ne_none_iff_exists'.1 (h.required i hi _ hv)
  exact ⟨a, by rw [BoundArguments.get?, hv, ha]; rfl⟩

/-- Different parameters have different arguments. -/
theorem Binds.get?_ne (h : s.Binds positional keywords args) (hnodup : (positional ++ keywords.map (·.2)).Nodup)
    {i j : Nat} {a : α} (hij : i ≠ j) (hi : args.get? i = some a) : args.get? j ≠ some a := by
  intro hj
  have hvalues : (args.values.filterMap id).Nodup := (List.nodup_append.1 (h.perm.nodup_iff.2 hnodup)).1
  rw [BoundArguments.get?, Option.join_eq_some_iff] at hi hj
  have key : ∀ {values : List (Option α)} {i j : Nat}, (values.filterMap id).Nodup → i < j →
      values[i]? = some (some a) → values[j]? ≠ some (some a) := by
    intro values
    induction values with
    | nil => intro i j _ _ hi; simp at hi
    | cons v values ih =>
      intro i j hnodup hlt hi hj
      obtain ⟨j, rfl⟩ : ∃ k, j = k + 1 := ⟨j - 1, by omega⟩
      have hj' : values[j]? = some (some a) := by simpa using hj
      cases i with
      | zero =>
        obtain rfl : v = some a := by simpa using hi
        have hmem : a ∈ values.filterMap id := List.mem_filterMap.2 ⟨some a, List.mem_of_getElem? hj', rfl⟩
        exact (List.nodup_cons.1 hnodup).1 hmem
      | succ i =>
        have hrest : (values.filterMap id).Nodup := by
          cases v with
          | none => simpa using hnodup
          | some b => exact (List.nodup_cons.1 hnodup).2
        exact ih (i := i) (j := j) hrest (by omega) (by simpa using hi) hj'
  rcases Nat.lt_or_gt_of_ne hij with hlt | hgt
  · exact key hvalues hlt hi hj
  · exact key hvalues hgt hj hi

/-! ## The order of evaluation -/

theorem isNondecreasing_cons {i : Nat} {l : List Nat} :
    isNondecreasing (i :: l) = true ↔ (∀ j, l.head? = some j → i ≤ j) ∧ isNondecreasing l = true := by
  cases l with
  | nil => simp [isNondecreasing]
  | cons j l => simp [isNondecreasing]

/-- Filling a place that only empty ones follow adds the value at the end. -/
theorem filterMap_set_append {a : α} : ∀ {values : List (Option α)} {i : Nat}, i < values.length →
    (∀ j ≥ i, values[j]?.join = none) → (values.set i (some a)).filterMap id = values.filterMap id ++ [a]
  | [], _, hlt, _ => nomatch hlt
  | v :: values, 0, _, hfree => by
    obtain rfl : v = none := by simpa using hfree 0 (Nat.le_refl _)
    have hnone : values.filterMap id = [] := by
      refine List.filterMap_eq_nil_iff.2 fun v hv => ?_
      obtain ⟨j, hj, rfl⟩ := List.getElem_of_mem hv
      simpa [hj] using hfree (j + 1) (Nat.zero_le _)
    rw [List.set_cons_zero, List.filterMap_cons, List.filterMap_cons, hnone]
    rfl
  | v :: values, i + 1, hlt, hfree => by
    have ih : (values.set i (some a)).filterMap id = values.filterMap id ++ [a] :=
      filterMap_set_append (by simpa using hlt) fun j hj => by simpa using hfree (j + 1) (by omega)
    cases v with
    | none => simpa using ih
    | some b => simpa using ih

/-- Keywords that name parameters in order fill them in this order. -/
theorem foldlM_bindKeyword_inOrder (hstar : s.starDict = false) {b : Nat} (hlen : args.values.length = s.params.length)
    (hfree : ∀ j ≥ b, args.get? j = none)
    (hfirst : ∀ i, (keywords.filterMap fun keyword => s.position? keyword.1).head? = some i → args.get? i = none →
      b ≤ i)
    (horder : s.keywordsInOrder keywords = true) (h : keywords.foldlM s.bindKeyword args = .ok args') :
    args'.values.filterMap id = args.values.filterMap id ++ keywords.map (·.2) ∧ args'.starList = args.starList ∧
      args'.starDict = args.starDict := by
  -- all places from `b` on are empty, and the next keyword can only fill one of these
  induction keywords generalizing args b with
  | nil =>
    cases h
    simp
  | cons keyword rest ih =>
    rw [List.foldlM_cons] at h
    obtain ⟨args₁, h₁, h⟩ := bind_eq_ok_iff.1 h
    unfold bindKeyword at h₁
    cases hi : s.position? keyword.1 with
    | none => simp [hi, hstar] at h₁
    | some i =>
      simp only [hi] at h₁
      split at h₁
      · cases h₁
      next hempty =>
      have hempty : args.get? i = none := by simpa using hempty
      cases h₁
      have hlt : i < args.values.length := hlen ▸ position?_lt hi
      have hbi : b ≤ i := hfirst i (by simp [hi]) hempty
      have hself : BoundArguments.get? { args with values := args.values.set i (some keyword.2) } i = some keyword.2 := by
        simp [BoundArguments.get?, hlt]
      have horder : isNondecreasing ((keyword :: rest).filterMap fun keyword => s.position? keyword.1) = true := horder
      rw [List.filterMap_cons, hi, isNondecreasing_cons] at horder
      have hfree' : ∀ j ≥ i + 1,
          BoundArguments.get? { args with values := args.values.set i (some keyword.2) } j = none := by
        intro j hj
        have hne : i ≠ j := by omega
        simpa [BoundArguments.get?, hne] using hfree j (by omega)
      obtain ⟨hvalues, hlist, hdict⟩ := ih (by simpa using hlen) hfree'
        (fun j hj hnone => by
          have hle := horder.1 j hj
          have hne : i ≠ j := by
            rintro rfl
            rw [hself] at hnone
            cases hnone
          omega)
        horder.2 h
      refine ⟨?_, hlist, hdict⟩
      rw [hvalues, filterMap_set_append hlt fun j hj => hfree j (Nat.le_trans hbi hj), List.append_assoc]
      rfl

/-- Keywords that name no parameter are collected in order. -/
theorem foldlM_bindKeyword_starDict (hpositional : s.positionalOnly = true)
    (h : keywords.foldlM s.bindKeyword args = .ok args') :
    args'.values = args.values ∧ args'.starList = args.starList ∧ args'.starDict = args.starDict ++ keywords := by
  induction keywords generalizing args with
  | nil =>
    cases h
    simp
  | cons keyword rest ih =>
    rw [List.foldlM_cons] at h
    obtain ⟨args₁, h₁, h⟩ := bind_eq_ok_iff.1 h
    have hnone : s.position? keyword.1 = none := by simp [position?, hpositional]
    simp only [bindKeyword, hnone] at h₁
    split at h₁
    · cases h₁
      simpa using ih h
    · cases h₁

/-- The bound arguments are those of the call, in the order of their evaluation. -/
structure BindsInOrder (s : Signature) (positional : List α) (keywords : List (String × α)) (args : BoundArguments α) :
    Prop where
  length : args.values.length = s.params.length
  all : args.all = positional ++ keywords.map (·.2)
  starList : s.starList = false → args.starList = []
  starDict : s.starDict = false → args.starDict = []

/-- What is collected comes after everything that has a parameter: collected keywords are no parameters, and nothing
follows collected positional arguments. -/
structure CollectsLast (s : Signature) : Prop where
  starDict : s.starDict = true → s.positionalOnly = true
  starList : s.starList = true → s.acceptsKeywords = false

/-- No keyword names a parameter once positional arguments are left over. -/
theorem bindKeyword_of_full (hstar : s.starDict = false) (hfull : s.params.length < positional.length)
    (keyword : String × α) : ∃ e, s.bindKeyword (s.bindPositional positional) keyword = .error e := by
  unfold bindKeyword
  cases hposition : s.position? keyword.1 with
  | none => exact ⟨.unexpected keyword.1, by simp [hstar]⟩
  | some i =>
    have hlt : i < s.params.length := position?_lt hposition
    have hfilled : ((s.bindPositional positional).get? i).isSome = true := by
      rw [bindPositional_get?, if_pos hlt, List.getElem?_eq_getElem (Nat.lt_trans hlt hfull)]
      rfl
    exact ⟨.repeated keyword.1, by simp [hfilled]⟩

/-- **Binding keeps the order of evaluation** if keywords stand in the order of the parameters and those that are
collected name no parameter. -/
theorem bindsInOrder_of_starDict (hdict : s.starDict = true → s.positionalOnly = true)
    (h : s.bind positional keywords = .ok args) (horder : s.keywordsInOrder keywords = true) :
    s.BindsInOrder positional keywords args := by
  have hbinds := binds_of_bind h
  obtain ⟨-, hcount, hfold, -⟩ := bind_ok_iff.1 h
  have hstart := bindPositional_all s positional
  have hrest (hnone : s.starList = false) : (s.bindPositional positional).starList = [] :=
    List.drop_eq_nil_of_le (by simpa [hnone] using hcount)
  cases hstar : s.starDict with
  | true =>
    obtain ⟨hvalues, hstarList, hstarDict⟩ := foldlM_bindKeyword_starDict (hdict hstar) hfold
    refine ⟨hbinds.length, ?_, fun hnone => hstarList.trans (hrest hnone), by simp [hstar]⟩
    rw [← hstart]
    simp [BoundArguments.all, hvalues, hstarList, hstarDict, bindPositional]
  | false =>
    have hfree : ∀ j ≥ positional.length, (s.bindPositional positional).get? j = none := by
      intro j hj
      rw [bindPositional_get?, List.getElem?_eq_none hj, ite_self]
    have hfirst : ∀ i, (keywords.filterMap fun keyword => s.position? keyword.1).head? = some i →
        (s.bindPositional positional).get? i = none → positional.length ≤ i := by
      intro i hi hnone
      obtain ⟨keyword, -, hposition⟩ := List.mem_filterMap.1 (List.mem_of_head? hi)
      rw [bindPositional_get?, if_pos (position?_lt hposition)] at hnone
      exact List.getElem?_eq_none_iff.1 hnone
    obtain ⟨hvalues, hstarList, hstarDict⟩ := foldlM_bindKeyword_inOrder hstar (by simp [bindPositional]) hfree hfirst
      horder hfold
    have hnoDict : args.starDict = [] := hstarDict
    refine ⟨hbinds.length, ?_, fun hnone => hstarList.trans (hrest hnone), fun _ => hnoDict⟩
    have hmixed : (s.bindPositional positional).starList = [] ∨ keywords = [] := by
      by_cases hfull : s.params.length < positional.length
      · cases keywords with
        | nil => exact .inr rfl
        | cons keyword rest =>
          obtain ⟨e, he⟩ := bindKeyword_of_full hstar hfull keyword
          simp [List.foldlM_cons, he] at hfold
      · exact .inl (List.drop_eq_nil_of_le (Nat.not_lt.1 hfull))
    have hall : (s.bindPositional positional).values.filterMap id ++ (s.bindPositional positional).starList =
        positional := by simpa [BoundArguments.all, bindPositional] using hstart
    rw [BoundArguments.all, hvalues, hstarList, hnoDict]
    rcases hmixed with hnone | rfl
    · simpa [hnone] using hall
    · simpa using hall

theorem bindsInOrder_of_bind (hlast : s.CollectsLast) (h : s.bind positional keywords = .ok args)
    (horder : s.keywordsInOrder keywords = true) : s.BindsInOrder positional keywords args :=
  bindsInOrder_of_starDict hlast.starDict h horder

/-! ## Arguments and what they stand for -/

section Map

variable {β : Type} (f : α → β)

theorem bindPositional_map : s.bindPositional (positional.map f) = (s.bindPositional positional).map f := by
  simp [bindPositional, BoundArguments.map, List.map_drop]

theorem bindKeyword_map (keyword : String × α) :
    s.bindKeyword (args.map f) (Prod.map id f keyword) = (s.bindKeyword args keyword).map (BoundArguments.map f) := by
  simp only [bindKeyword, Prod.map_fst, Prod.map_snd, id_eq, BoundArguments.get?_map, Option.isSome_map]
  split
  · split
    · rfl
    · simp [BoundArguments.map, List.map_set, Except.map]
  · split
    · simp [BoundArguments.map, Except.map, Prod.map]
    · rfl

theorem foldlM_bindKeyword_map : (keywords.map (Prod.map id f)).foldlM s.bindKeyword (args.map f) =
    (keywords.foldlM s.bindKeyword args).map (BoundArguments.map f) := by
  induction keywords generalizing args with
  | nil => rfl
  | cons keyword rest ih =>
    rw [List.map_cons, List.foldlM_cons, List.foldlM_cons, bindKeyword_map]
    cases s.bindKeyword args keyword with
    | error e => rfl
    | ok args' => exact ih

/-- **Binding never looks at an argument.** -/
theorem bind_map : s.bind (positional.map f) (keywords.map (Prod.map id f)) =
    (s.bind positional keywords).map (BoundArguments.map f) := by
  have hgiven : s.countGiven (positional.map f) (keywords.map (Prod.map id f)) = s.countGiven positional keywords := by
    simp [countGiven]
  simp only [bind, List.isEmpty_map, List.length_map, hgiven, bindPositional_map, foldlM_bindKeyword_map]
  split
  · rfl
  split
  · rfl
  cases keywords.foldlM s.bindKeyword (s.bindPositional positional) with
  | error e => rfl
  | ok args =>
    have hmissing : ((args.map f).values.take s.minArgs).any Option.isNone =
        (args.values.take s.minArgs).any Option.isNone := by
      simp [BoundArguments.map, ← List.map_take, List.any_map, Function.comp_def]
    simp only [Except.map, ok_bind, hmissing]
    split <;> rfl

theorem keywordsInOrder_map : s.keywordsInOrder (keywords.map (Prod.map id f)) = s.keywordsInOrder keywords := by
  simp [keywordsInOrder, List.filterMap_map]

end Map

end Signature

end Specializer
