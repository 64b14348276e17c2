import Specializer.Proofs.Signature

/-!
# Which calls a signature accepts

`Signature.Accepts` says from the call alone when binding succeeds: keywords are taken at all, the positional arguments
fit, every keyword has a place, and no required parameter is left without an argument. It looks at no state of the
binding, so the work is in the loop over the keywords. `Signature.Assigns` is its invariant: every parameter has the
argument that the call has given it so far, by place or by name, and what is collected stands in the order of the call.
One keyword succeeds exactly if it has a place (`Assigns.bindKeyword_of_hasPlace`,
`Assigns.bindKeyword_of_not_hasPlace`), and so does the loop (`Assigns.foldlM_ok`, `Assigns.foldlM_eq_ok`).

Main statement: binding succeeds exactly on the calls that the signature accepts, and then gives each argument its place
(`Signature.bind_exact`).
-/

namespace Specializer.Signature

variable {α : Type} {s : Signature} {positional : List α} {keywords done : List (String × α)} {keyword : String × α}
  {args args' : BoundArguments α} {name : String} {i : Nat}

/-- The argument that a call gives to a parameter, by its place or by its name. -/
def argument? (s : Signature) (positional : List α) (keywords : List (String × α)) (i : Nat) : Option α :=
  positional[i]?.or ((keywords.find? fun keyword => s.position? keyword.1 == some i).map (·.2))

/-- The keywords that name no parameter. -/
def collected (s : Signature) (keywords : List (String × α)) : List (String × α) :=
  keywords.filter fun keyword => (s.position? keyword.1).isNone

/-- A signature accepts a call. -/
structure Accepts (s : Signature) (positional : List α) (keywords : List (String × α)) : Prop where
  keywordsTaken : keywords = [] ∨ s.acceptsKeywords = true
  positionals : positional.length ≤ s.params.length ∨ s.starList = true
  /-- A keyword names a parameter that neither a positional argument nor an earlier keyword has filled, or it is
  collected. -/
  placed : ∀ before keyword after, keywords = before ++ keyword :: after →
    (s.positionalOnly = false ∧ ∃ i, s.params[i]? = some keyword.1 ∧ positional.length ≤ i ∧
      keyword.1 ∉ before.map (·.1)) ∨
    ((s.positionalOnly = true ∨ keyword.1 ∉ s.params) ∧ s.starDict = true)
  /-- A parameter without a default has an argument. -/
  required : ∀ i name, i < s.minArgs → s.params[i]? = some name →
    i < positional.length ∨ (s.positionalOnly = false ∧ name ∈ keywords.map (·.1))

/-! ## Keywords and parameters -/

theorem position?_eq_none_iff : s.position? name = none ↔ s.positionalOnly = true ∨ name ∉ s.params := by
  cases hs : s.positionalOnly <;> simp [position?, hs, List.idxOf?_eq_none_iff]

theorem position?_eq_some_iff (hnodup : s.params.Nodup) :
    s.position? name = some i ↔ s.positionalOnly = false ∧ s.params[i]? = some name := by
  cases hs : s.positionalOnly with
  | true => simp [position?, hs]
  | false =>
    simp only [position?, hs, Bool.false_eq_true, if_false, true_and]
    rw [List.idxOf?, List.findIdx?_eq_some_iff_getElem]
    constructor
    · rintro ⟨hi, hname, -⟩
      rw [List.getElem?_eq_getElem hi, eq_of_beq hname]
    · intro hi
      obtain ⟨hlt, rfl⟩ := List.getElem?_eq_some_iff.1 hi
      refine ⟨hlt, by simp, fun j hj => ?_⟩
      have hne := List.pairwise_iff_getElem.1 hnodup j i (Nat.lt_trans hj hlt) hlt hj
      simpa using hne

/-- A parameter has an argument if there is one in its place, or a keyword with its name. -/
theorem argument?_isSome_iff (hnodup : s.params.Nodup) (hi : s.params[i]? = some name) :
    (s.argument? positional keywords i).isSome = true ↔
      i < positional.length ∨ (s.positionalOnly = false ∧ name ∈ keywords.map (·.1)) := by
  have hnamed (keyword : String × α) :
      s.position? keyword.1 = some i ↔ s.positionalOnly = false ∧ keyword.1 = name := by
    rw [position?_eq_some_iff hnodup, hi, Option.some.injEq, eq_comm (a := name)]
  simp only [argument?, Option.isSome_or, Option.isSome_map, Bool.or_eq_true, List.find?_isSome, beq_iff_eq, hnamed,
    List.mem_map, isSome_getElem?]
  grind

/-- A keyword more gives its value to its own parameter, if that has no argument yet. -/
theorem argument?_concat : s.argument? positional (done ++ [keyword]) i =
    (s.argument? positional done i).or (if s.position? keyword.1 = some i then some keyword.2 else none) := by
  simp only [argument?, List.find?_append, Option.map_or, Option.or_assoc, List.find?_singleton]
  by_cases hi : s.position? keyword.1 = some i <;> simp [hi]

/-! ## The loop over the keywords -/

/-- The arguments with the positional ones and some keywords bound. -/
structure Assigns (s : Signature) (positional : List α) (done : List (String × α)) (args : BoundArguments α) :
    Prop where
  length : args.values.length = s.params.length
  value : ∀ i < s.params.length, args.get? i = s.argument? positional done i
  starList : args.starList = positional.drop s.params.length
  starDict : args.starDict = s.collected done

/-- A keyword has a place after others: its parameter has no argument yet, or it is collected. -/
def HasPlace (s : Signature) (positional : List α) (before : List (String × α)) (name : String) : Prop :=
  match s.position? name with
  | some i => s.argument? positional before i = none
  | none => s.starDict = true

theorem assigns_bindPositional (s : Signature) (positional : List α) :
    s.Assigns positional [] (s.bindPositional positional) := by
  refine ⟨by simp [bindPositional], fun i hi => ?_, rfl, rfl⟩
  rw [bindPositional_get?, if_pos hi]
  simp [argument?]

namespace Assigns

/-- A keyword with a place is bound. -/
theorem bindKeyword_of_hasPlace (h : s.Assigns positional done args) (hplace : s.HasPlace positional done keyword.1) :
    ∃ args', s.bindKeyword args keyword = .ok args' ∧ s.Assigns positional (done ++ [keyword]) args' := by
  unfold HasPlace at hplace
  cases hposition : s.position? keyword.1 with
  | none =>
    simp only [hposition] at hplace
    have hrun : s.bindKeyword args keyword = .ok { args with starDict := args.starDict ++ [keyword] } := by
      simp [bindKeyword, hposition, hplace]
    refine ⟨_, hrun, h.length, fun i hi => ?_, h.starList, ?_⟩
    · rw [argument?_concat, if_neg (by simp [hposition]), Option.or_none]
      exact h.value i hi
    · simp [collected, hposition, h.starDict]
  | some p =>
    simp only [hposition] at hplace
    have hlt : p < s.params.length := position?_lt hposition
    have hempty : args.get? p = none := (h.value p hlt).trans hplace
    have hrun : s.bindKeyword args keyword = .ok { args with values := args.values.set p (some keyword.2) } := by
      simp [bindKeyword, hposition, hempty]
    refine ⟨_, hrun, by simpa using h.length, fun i hi => ?_, h.starList, ?_⟩
    · rw [argument?_concat, ← h.value i hi]
      by_cases hpi : p = i
      · subst hpi
        rw [if_pos hposition, hempty]
        simp [BoundArguments.get?, h.length, hlt]
      · rw [if_neg (by simpa [hposition] using hpi), Option.or_none]
        simp [BoundArguments.get?, hpi]
    · simp [collected, hposition, h.starDict]

/-- A keyword without a place is refused. -/
theorem bindKeyword_of_not_hasPlace (h : s.Assigns positional done args)
    (hplace : ¬ s.HasPlace positional done keyword.1) : ∃ e, s.bindKeyword args keyword = .error e := by
  unfold HasPlace at hplace
  cases hposition : s.position? keyword.1 with
  | none =>
    simp only [hposition] at hplace
    exact ⟨.unexpected keyword.1, by simp [bindKeyword, hposition, hplace]⟩
  | some p =>
    simp only [hposition] at hplace
    have hfilled : (args.get? p).isSome = true := by
      rw [h.value p (position?_lt hposition)]
      exact Option.isSome_iff_ne_none.2 hplace
    exact ⟨.repeated keyword.1, by simp [bindKeyword, hposition, hfilled]⟩

/-- Keywords that all have a place are bound. -/
theorem foldlM_ok (h : s.Assigns positional done args)
    (hplaces : ∀ before keyword after, keywords = before ++ keyword :: after →
      s.HasPlace positional (done ++ before) keyword.1) :
    ∃ args', keywords.foldlM s.bindKeyword args = .ok args' ∧ s.Assigns positional (done ++ keywords) args' := by
  induction keywords generalizing done args with
  | nil => exact ⟨args, rfl, by simpa using h⟩
  | cons keyword rest ih =>
    have hfirst : s.HasPlace positional done keyword.1 := by simpa using hplaces [] keyword rest rfl
    obtain ⟨args₁, hrun, h₁⟩ := h.bindKeyword_of_hasPlace hfirst
    obtain ⟨args', hrest, h'⟩ := ih h₁ fun before k after hsplit => by
      simpa using hplaces (keyword :: before) k after (by simp [hsplit])
    exact ⟨args', by rw [List.foldlM_cons, hrun, ok_bind, hrest], by simpa using h'⟩

/-- Keywords that were bound all had a place. -/
theorem foldlM_eq_ok (h : s.Assigns positional done args) (hrun : keywords.foldlM s.bindKeyword args = .ok args') :
    s.Assigns positional (done ++ keywords) args' ∧
      ∀ before keyword after, keywords = before ++ keyword :: after →
        s.HasPlace positional (done ++ before) keyword.1 := by
  induction keywords generalizing done args with
  | nil =>
    cases hrun
    exact ⟨by simpa using h, fun before keyword after hsplit => by simp at hsplit⟩
  | cons keyword rest ih =>
    rw [List.foldlM_cons] at hrun
    obtain ⟨args₁, hfirst, hrun⟩ := bind_eq_ok_iff.1 hrun
    have hplace : s.HasPlace positional done keyword.1 := by
      by_contra hplace
      obtain ⟨e, he⟩ := h.bindKeyword_of_not_hasPlace hplace
      cases he.symm.trans hfirst
    obtain ⟨args₂, hfirst₂, h₁⟩ := h.bindKeyword_of_hasPlace hplace
    cases hfirst₂.symm.trans hfirst
    obtain ⟨h', hplaces⟩ := ih h₁ hrun
    refine ⟨by simpa using h', fun before k after hsplit => ?_⟩
    cases before with
    | nil =>
      obtain ⟨rfl, -⟩ := List.cons.inj hsplit
      simpa using hplace
    | cons b before =>
      obtain ⟨rfl, htail⟩ := List.cons.inj hsplit
      simpa using hplaces before k after htail

end Assigns

/-! ## Acceptance -/

/-- A keyword has a place in words of the call. -/
theorem hasPlace_iff (hnodup : s.params.Nodup) {before : List (String × α)} : s.HasPlace positional before name ↔
    (s.positionalOnly = false ∧ ∃ i, s.params[i]? = some name ∧ positional.length ≤ i ∧ name ∉ before.map (·.1)) ∨
      ((s.positionalOnly = true ∨ name ∉ s.params) ∧ s.starDict = true) := by
  unfold HasPlace
  cases hposition : s.position? name with
  | none =>
    have hnone := position?_eq_none_iff.1 hposition
    refine ⟨fun hstar => .inr ⟨hnone, hstar⟩, ?_⟩
    rintro (⟨hs, i, hi, -⟩ | ⟨-, hstar⟩)
    · rw [(position?_eq_some_iff hnodup).2 ⟨hs, hi⟩] at hposition
      cases hposition
    · exact hstar
  | some p =>
    obtain ⟨hs, hp⟩ := (position?_eq_some_iff hnodup).1 hposition
    have hfree : s.argument? positional before p = none ↔ positional.length ≤ p ∧ name ∉ before.map (·.1) := by
      rw [← Option.not_isSome_iff_eq_none, argument?_isSome_iff hnodup hp, hs]
      simp
    refine ⟨fun hnone => .inl ⟨hs, p, hp, hfree.1 hnone⟩, ?_⟩
    rintro (⟨-, i, hi, hplace⟩ | ⟨hnone, -⟩)
    · obtain rfl : p = i := Option.some.inj (hposition.symm.trans ((position?_eq_some_iff hnodup).2 ⟨hs, hi⟩))
      exact hfree.2 hplace
    · rw [position?_eq_none_iff.2 hnone] at hposition
      cases hposition

/-- The first parameters all have an argument exactly if none of their places is empty. -/
theorem Assigns.any_isNone_iff (h : s.Assigns positional done args) {count : Nat} (hcount : count ≤ s.params.length) :
    (args.values.take count).any Option.isNone = true ↔ ∃ i < count, s.argument? positional done i = none := by
  rw [List.any_eq_true]
  constructor
  · rintro ⟨v, hv, hnone⟩
    obtain ⟨i, hi, rfl⟩ := List.getElem_of_mem hv
    rw [List.length_take] at hi
    have hlt : i < count := by omega
    refine ⟨i, hlt, ?_⟩
    rw [← h.value i (by omega), BoundArguments.get?, List.getElem?_eq_getElem (by omega)]
    simpa using hnone
  · rintro ⟨i, hi, hnone⟩
    have hlt : i < args.values.length := by rw [h.length]; omega
    rw [← h.value i (by omega), BoundArguments.get?, List.getElem?_eq_getElem hlt] at hnone
    refine ⟨args.values[i], ?_, by simpa using hnone⟩
    exact List.mem_of_getElem? ((List.getElem?_take_of_lt hi).trans (List.getElem?_eq_getElem hlt))

/-- The required parameters all have an argument. -/
theorem Assigns.required_iff (h : s.Assigns positional done args) (hnodup : s.params.Nodup) :
    (args.values.take s.minArgs).any Option.isNone = false ↔ ∀ i name, i < s.minArgs → s.params[i]? = some name →
      i < positional.length ∨ (s.positionalOnly = false ∧ name ∈ done.map (·.1)) := by
  have hle : s.minArgs ≤ s.params.length := Nat.sub_le ..
  rw [Bool.eq_false_iff, ne_eq, h.any_isNone_iff hle]
  constructor
  · intro hfull i name hi hname
    rw [← argument?_isSome_iff hnodup hname, Option.isSome_iff_ne_none]
    exact fun hnone => hfull ⟨i, hi, hnone⟩
  · rintro hfull ⟨i, hi, hnone⟩
    have hname : s.params[i]? = some s.params[i] := List.getElem?_eq_getElem (Nat.lt_of_lt_of_le hi hle)
    have hsome := (argument?_isSome_iff hnodup hname).2 (hfull i _ hi hname)
    simp [hnone] at hsome

theorem accepts_of_bind (hnodup : s.params.Nodup) (h : s.bind positional keywords = .ok args) :
    s.Accepts positional keywords ∧ s.Assigns positional keywords args := by
  obtain ⟨htaken, hfits, hfold, hfull⟩ := bind_ok_iff.1 h
  obtain ⟨hassigns, hplaces⟩ := (assigns_bindPositional s positional).foldlM_eq_ok hfold
  refine ⟨⟨htaken, hfits, fun before keyword after hsplit => ?_, (hassigns.required_iff hnodup).1 hfull⟩, hassigns⟩
  exact (hasPlace_iff hnodup).1 (hplaces before keyword after hsplit)

theorem Accepts.bind_ok (hnodup : s.params.Nodup) (h : s.Accepts positional keywords) :
    ∃ args, s.bind positional keywords = .ok args := by
  obtain ⟨args, hfold, hassigns⟩ := (assigns_bindPositional s positional).foldlM_ok fun before keyword after hsplit =>
    (hasPlace_iff hnodup).2 (h.placed before keyword after hsplit)
  exact ⟨args, bind_ok_iff.2 ⟨h.keywordsTaken, h.positionals, hfold, (hassigns.required_iff hnodup).2 h.required⟩⟩

/-- **Binding neither loses, doubles nor reorders arguments.** It succeeds exactly on the calls that the signature
accepts. Then every parameter has the argument that the call gives it by place or by name, and the collected keywords
are those that name no parameter, as they stand in the call. If the keywords stand in the order of the parameters, the
bound arguments are those of the call in their order. -/
theorem bind_exact (s : Signature) (positional : List α) (keywords : List (String × α)) (hnodup : s.params.Nodup)
    (hdict : s.starDict = true → s.positionalOnly = true) :
    ((∃ args, s.bind positional keywords = .ok args) ↔ s.Accepts positional keywords) ∧
      ∀ args, s.bind positional keywords = .ok args →
        args.values = (List.range s.params.length).map (s.argument? positional keywords) ∧
        args.starList = positional.drop s.params.length ∧
        args.starDict = keywords.filter (fun keyword => s.positionalOnly || !s.params.contains keyword.1) ∧
        (s.keywordsInOrder keywords = true →
          args.values.filterMap id ++ args.starList ++ args.starDict.map (·.2) = positional ++ keywords.map (·.2)) := by
  refine ⟨⟨fun ⟨args, h⟩ => (accepts_of_bind hnodup h).1, Accepts.bind_ok hnodup⟩, fun args h => ?_⟩
  obtain ⟨-, hassigns⟩ := accepts_of_bind hnodup h
  refine ⟨?_, hassigns.starList, ?_, fun horder => ?_⟩
  · refine List.ext_getElem (by simp [hassigns.length]) fun i hi hi' => ?_
    have hvalue := hassigns.value i (hassigns.length ▸ hi)
    simpa [BoundArguments.get?, hi] using hvalue
  · rw [hassigns.starDict, collected]
    congr 1
    funext keyword
    rw [Bool.eq_iff_iff, Option.isNone_iff_eq_none, position?_eq_none_iff]
    simp
  · have hinOrder := bindsInOrder_of_starDict hdict h horder
    rw [List.append_assoc]
    exact hinOrder.all

/-- A parameter by place, one by name, and one that is left out. -/
theorem bind_exact_openFile : (Signature.openFile.bind [1] [("buffering", 2)] =
      .ok { values := [some 1, none, some 2], starList := [], starDict := [] }) ∧
    Signature.openFile.Accepts [1] [("buffering", 2)] ∧
    ([some 1, none, some 2].filterMap id ++ [] ++ ([] : List (String × Nat)).map (·.2) = [1] ++ [2]) := by
  have h := bind_exact Signature.openFile [1] [("buffering", 2)] (by decide) (by decide)
  have hrun : Signature.openFile.bind [1] [("buffering", 2)] =
      .ok { values := [some 1, none, some 2], starList := [], starDict := [] } := by decide
  exact ⟨hrun, h.1.1 ⟨_, hrun⟩, (h.2 _ hrun).2.2.2 (by decide)⟩

end Specializer.Signature
