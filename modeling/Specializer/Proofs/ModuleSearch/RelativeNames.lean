import Mathlib.Data.List.TakeWhile
import Specializer.ModuleSearch.Locator

/-!
# Relative module names

The name of a package lists the parts on the way to it from the top level (`PackagePath`). Going one level up drops the
last part (`PackagePath.package?_name`), so going up several levels takes the parts that are left, and there is nothing
above the first one (`PackagePath.ancestor?_name`).

Main statement: a name that is imported with `k` dots from a package with `n` parts is the name behind the first
`n - k + 1` parts, and does not exist if `k` is more than `n`; the locators ask for that one name
(`relative_names_exact`).
-/

namespace Specializer

namespace ModuleName

/-! ## One level up -/

theorem package?_of_no_dot {name : String} (h : '.' ∉ name.toList) : (⟨name⟩ : ModuleName).package? = none := by
  have hnone : name.toList.reverse.dropWhile (· != '.') = [] :=
    List.dropWhile_eq_nil_iff.2 fun c hc => bne_iff_ne.2 fun heq => h (heq ▸ List.mem_reverse.1 hc)
  rw [package?, hnone]

theorem package?_append {front last : String} (h : '.' ∉ last.toList) :
    (⟨front ++ "." ++ last⟩ : ModuleName).package? = some ⟨front⟩ := by
  have hlast : ∀ c ∈ last.toList.reverse, (c != '.') = true :=
    fun c hc => bne_iff_ne.2 fun heq => h (heq ▸ List.mem_reverse.1 hc)
  have hdrop : (front ++ "." ++ last).toList.reverse.dropWhile (· != '.') = '.' :: front.toList.reverse := by
    rw [String.toList_append, String.toList_append, List.reverse_append, List.reverse_append,
      List.dropWhile_append_of_pos hlast]
    rfl
  rw [package?, hdrop]
  simp only [List.reverse_reverse, String.ofList_toList]

end ModuleName

/-- The way to a package: the parts of its name, from the top level down. -/
structure PackagePath where
  parts : List String
  ne_nil : parts ≠ []
  isPart : ∀ part ∈ parts, part ≠ "" ∧ '.' ∉ part.toList

namespace PackagePath

/-- The dotted name of the package. -/
def name (path : PackagePath) : ModuleName := ⟨".".intercalate path.parts⟩

/-- How many parts the name has. -/
def depth (path : PackagePath) : Nat := path.parts.length

/-- The package that many levels up, as long as there is one. -/
def up (path : PackagePath) (levels : Nat) (h : levels < path.depth) : PackagePath where
  parts := path.parts.take (path.depth - levels)
  ne_nil := List.ne_nil_of_length_pos (by rw [List.length_take, depth]; unfold depth at h; omega)
  isPart part hpart := path.isPart part (List.mem_of_mem_take hpart)

/-- The name behind the parts that `dots` dots leave: one dot leaves all of them. -/
def relativeName (path : PackagePath) (dots : Nat) (name : String) : ModuleName :=
  ⟨".".intercalate (path.parts.take (path.depth + 1 - dots)) ++ if name = "" then "" else "." ++ name⟩

variable (path : PackagePath)

@[simp] theorem up_parts {levels : Nat} (h : levels < path.depth) :
    (path.up levels h).parts = path.parts.take (path.depth - levels) := rfl

theorem depth_pos : 0 < path.depth := List.length_pos_iff.2 path.ne_nil

/-- A path is a single part or goes on from a shorter path. -/
theorem eq_single_or_concat : (∃ part, path.parts = [part] ∧ '.' ∉ part.toList) ∨
    ∃ (front : PackagePath) (last : String), path.parts = front.parts ++ [last] ∧ '.' ∉ last.toList := by
  obtain ⟨front, last, hparts⟩ := List.eq_nil_or_concat path.parts |>.resolve_left path.ne_nil
  rw [List.concat_eq_append] at hparts
  have hlast := (path.isPart last (by simp [hparts])).2
  by_cases hfront : front = []
  · exact .inl ⟨last, by simpa [hfront] using hparts, hlast⟩
  · refine .inr ⟨⟨front, hfront, fun part hpart => path.isPart part ?_⟩, last, hparts, hlast⟩
    rw [hparts]
    exact List.mem_append_left _ hpart

/-- One level up is the path without its last part, and there is nothing above a single part. -/
theorem package?_name : path.name.package? = if h : 1 < path.depth then some (path.up 1 h).name else none := by
  obtain ⟨part, hparts, hpart⟩ | ⟨front, last, hparts, hlast⟩ := path.eq_single_or_concat
  · rw [dif_neg (by simp [depth, hparts]), name, hparts, String.intercalate_singleton]
    exact ModuleName.package?_of_no_dot hpart
  · have hdepth : path.depth = front.depth + 1 := by simp [depth, hparts]
    have hfront := front.depth_pos
    have hup : (path.up 1 (by omega)).parts = front.parts := by
      simp only [up, hdepth, hparts, Nat.add_sub_cancel]
      exact List.take_left
    rw [dif_pos (by omega), name, name, hup, hparts,
      String.intercalate_append_of_ne_nil front.ne_nil (List.cons_ne_nil _ _), String.intercalate_singleton]
    exact ModuleName.package?_append hlast

/-! ## Several levels up -/

/-- Going up step by step takes the parts that are left; the way ends at the first part. -/
theorem ancestor?_name (levels : Nat) :
    path.name.ancestor? levels = if h : levels < path.depth then some (path.up levels h).name else none := by
  induction levels generalizing path with
  | zero =>
    rw [dif_pos path.depth_pos]
    simp [ModuleName.ancestor?, name, up, depth]
  | succ levels ih =>
    -- The levels that are left lead on from a path that is one part shorter.
    rw [ModuleName.ancestor?, path.package?_name]
    by_cases hone : 1 < path.depth
    · have hdepth : (path.up 1 hone).depth = path.depth - 1 := by simp [depth, up]
      rw [dif_pos hone]
      simp only [ih, hdepth]
      by_cases hlevels : levels + 1 < path.depth
      · have hleft : min (path.depth - 1 - levels) (path.depth - 1) = path.depth - (levels + 1) := by omega
        rw [dif_pos hlevels, dif_pos (by omega)]
        simp only [name, up_parts, hdepth, List.take_take, hleft]
      · rw [dif_neg hlevels, dif_neg (by omega)]
    · rw [dif_neg hone, dif_neg (by omega)]

theorem name_ne_empty : path.name.text ≠ "" := by
  obtain ⟨part, rest, hparts⟩ := List.exists_cons_of_ne_nil path.ne_nil
  have hpart := (path.isPart part (by simp [hparts])).1
  intro hempty
  rw [name, hparts] at hempty
  cases rest with
  | nil => exact hpart (by simpa using hempty)
  | cons next rest => simp at hempty

/-- A name inside a package stands behind the name of the package and a dot. -/
theorem child_name (name : String) :
    path.name.child name = ⟨path.name.text ++ if name = "" then "" else "." ++ name⟩ := by
  have hne : path.name.isEmpty = false := by simpa [ModuleName.isEmpty] using path.name_ne_empty
  rw [ModuleName.child, hne]
  by_cases hname : name = ""
  · simp [hname]
  · have hisEmpty : name.isEmpty = false := by simpa using hname
    simp [hname, hisEmpty, String.append_assoc]

/-- The name behind the parts that are left, if any are. -/
theorem relativeTo?_name {dots : UInt64} (hdots : 1 ≤ dots) (name : String) :
    ModuleName.relativeTo? (some path.name) dots name =
      if dots.toNat ≤ path.depth then some (path.relativeName dots.toNat name) else none := by
  have hpos : 1 ≤ dots.toNat := UInt64.le_iff_toNat_le.1 hdots
  have hne : dots ≠ 0 := by
    rintro rfl
    exact absurd hpos (by decide)
  simp only [ModuleName.relativeTo?, if_neg hne, path.ancestor?_name]
  by_cases hdepth : dots.toNat ≤ path.depth
  · have hleft : path.depth - (dots.toNat - 1) = path.depth + 1 - dots.toNat := by omega
    rw [dif_pos (by omega), if_pos hdepth, Option.map_some, child_name]
    simp only [PackagePath.name, up, relativeName, hleft]
  · rw [dif_neg (by omega), if_neg hdepth]
    rfl

theorem relativeName_isEmpty {dots : Nat} (hpos : 1 ≤ dots) (hdepth : dots ≤ path.depth) (name : String) :
    (path.relativeName dots name).isEmpty = false := by
  have hne := (path.up (dots - 1) (by omega)).name_ne_empty
  have hleft : path.depth - (dots - 1) = path.depth + 1 - dots := by omega
  simp only [PackagePath.name, up, hleft] at hne
  simp [ModuleName.isEmpty, relativeName, hne]

end PackagePath

/-! ## Looking up -/

namespace Locator

/-- The locators and what they answer for absolute names. -/
inductive Asks : Locator → (ModuleName → ModuleFinding) → Prop where
  | standard (fs : FileSystem) (version : Version) (searchPaths : List String) :
    Asks (.standard fs version searchPaths) (find fs version searchPaths)
  | ofTable (modules : List (ModuleName × ModuleFinding)) : Asks (.ofTable modules) (lookup modules)

theorem Asks.locate {locator : Locator} {probe : ModuleName → ModuleFinding} (h : locator.Asks probe) :
    locator.locate = resolve probe := by
  cases h <;> rfl

/-- An import with dots from inside a package asks for one name, or for none. -/
theorem resolve_path (probe : ModuleName → ModuleFinding) (path : PackagePath) (name : ModuleName) {level : Int64}
    (hlevel : 1 ≤ level) : resolve probe name (some path.name) level =
      if level.toInt.toNat ≤ path.depth then
        (path.relativeName level.toInt.toNat name.text, probe (path.relativeName level.toInt.toNat name.text))
      else (name, .notFound) := by
  have hnonneg : 0 ≤ level := Int64.le_trans (by decide) hlevel
  have hdots : level.toUInt64.toNat = level.toInt.toNat := Int64.toNat_toUInt64_of_le hnonneg
  have hone : 1 ≤ level.toInt := Int64.le_iff_toInt_le.1 hlevel
  have hpos : 1 ≤ level.toUInt64 := UInt64.le_iff_toNat_le.2 (hdots ▸ Int.lt_toNat.2 hone)
  rw [resolve, if_neg (Int64.not_lt.2 hnonneg), path.relativeTo?_name hpos, hdots]
  by_cases hdepth : level.toInt.toNat ≤ path.depth
  · simp only [if_pos hdepth, path.relativeName_isEmpty (hdots ▸ UInt64.le_iff_toNat_le.1 hpos) hdepth]
    rfl
  · simp only [if_neg hdepth]

end Locator

/-- **Relative names go by their parts.** From a package with `n` parts, `k` dots lead to the name behind the first
`n - k + 1` of them and out of the top level if `k` is more than `n`, however many dots there are. Every locator asks
for the one name that comes out, and for nothing if none does. -/
theorem relative_names_exact (path : PackagePath) :
    (∀ (dots : UInt64) (name : String), 1 ≤ dots →
      (ModuleName.relativeTo? (some path.name) dots name = none ↔ path.depth < dots.toNat) ∧
      (dots.toNat ≤ path.depth →
        ModuleName.relativeTo? (some path.name) dots name = some (path.relativeName dots.toNat name))) ∧
    ∀ (locator : Locator) (probe : ModuleName → ModuleFinding), locator.Asks probe →
      ∀ (name : ModuleName) (level : Int64), 1 ≤ level →
        (path.depth < level.toInt → locator.locate name (some path.name) level = (name, .notFound)) ∧
        (level.toInt ≤ path.depth → locator.locate name (some path.name) level =
          (path.relativeName level.toInt.toNat name.text, probe (path.relativeName level.toInt.toNat name.text))) := by
  refine ⟨fun dots name hdots => ?_, fun locator probe hasks name level hlevel => ?_⟩
  · rw [path.relativeTo?_name hdots]
    refine ⟨?_, fun hdepth => if_pos hdepth⟩
    split <;> simp <;> omega
  · rw [hasks.locate, Locator.resolve_path probe path name hlevel]
    exact ⟨fun hbeyond => if_neg (by omega), fun hwithin => if_pos (by omega)⟩

/-- From a package of three parts, three dots lead to its first part, and the most dots there are lead nowhere. -/
theorem relative_names_exact_threeParts :
    let path : PackagePath := ⟨["a", "b", "c"], by decide, by decide⟩
    let locator : Locator := .ofTable [(⟨"a.x"⟩, .builtIn)]
    locator.Asks (Locator.lookup [(⟨"a.x"⟩, .builtIn)]) ∧ path.name = ⟨"a.b.c"⟩ ∧
      ModuleName.relativeTo? (some path.name) 3 "" = some ⟨"a"⟩ ∧
      ModuleName.relativeTo? (some path.name) 18446744073709551615 "x" = none ∧
      locator.locate ⟨"x"⟩ (some path.name) 3 = (⟨"a.x"⟩, .builtIn) ∧
      locator.locate ⟨"x"⟩ (some path.name) Int64.maxValue = (⟨"x"⟩, .notFound) := by
  intro path locator
  have hasks : locator.Asks (Locator.lookup [(⟨"a.x"⟩, .builtIn)]) := .ofTable _
  obtain ⟨hnames, hlocated⟩ := relative_names_exact path
  exact ⟨hasks, by decide, (hnames 3 "" (by decide)).2 (by decide),
    (hnames 18446744073709551615 "x" (by decide)).1.2 (by decide),
    (hlocated locator _ hasks ⟨"x"⟩ 3 (by decide)).2 (by decide),
    (hlocated locator _ hasks ⟨"x"⟩ Int64.maxValue (by decide)).1 (by decide)⟩

end Specializer
