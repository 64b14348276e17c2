import Mathlib.Tactic.SplitIfs
import Specializer.ModuleSearch.Locator

/-!
# The order of module search

What one directory of the search path offers for a module is said without a search (`Offers`): the packages on the way
to it have to be there, and the last of them holds the module in one of three forms, of which the first counts
(`Holds`). Searching below the directory finds what it offers (`offers_iff`).

Along the search path a file counts wherever it is, and a bare directory only if there is no file at all; among several
of a kind the earliest one counts (`searchAlong_eq_found`, `searchAlong_eq_namespacePackage`,
`searchAlong_eq_notFound`).

Main statement: what the locator of an interpreter finds for a module that is not built in (`find_exact`).
-/

namespace Specializer.Locator

section Search

variable {fs : FileSystem} {version : Version} {base directory last : String} {components : List String}
  {finding : ModuleFinding}

/-! ## One directory of the search path -/

/-- The directory that packages lead to. -/
def descend (base : String) (packages : List String) : String := packages.foldl FilePath.join base

/-- Every package on the way holds an initialisation file or, in the newer version, is a directory at least. -/
def Passable (fs : FileSystem) (version : Version) (base : String) (packages : List String) : Prop :=
  ∀ front, front ≠ [] → front <+: packages →
    fs.isFile (initFile (descend base front)) = true ∨
      version = .python3 ∧ fs.isDirectory (descend base front) = true

/-- The forms in which a directory holds a module: a package with an initialisation file, a module file if there is no
such package, and in the newer version a bare directory if there is neither. -/
inductive Holds (fs : FileSystem) (version : Version) (directory last : String) : ModuleFinding → Prop where
  | package (init : fs.isFile (initFile (FilePath.join directory last)) = true) :
    Holds fs version directory last (.found (initFile (FilePath.join directory last)))
  | file (noInit : fs.isFile (initFile (FilePath.join directory last)) = false)
    (file : fs.isFile (FilePath.join directory (last ++ ".py")) = true) :
    Holds fs version directory last (.found (FilePath.join directory (last ++ ".py")))
  | bare (noInit : fs.isFile (initFile (FilePath.join directory last)) = false)
    (noFile : fs.isFile (FilePath.join directory (last ++ ".py")) = false)
    (newer : version = .python3) (bare : fs.isDirectory (FilePath.join directory last) = true) :
    Holds fs version directory last (.namespacePackage (FilePath.join directory last))

/-- What a directory offers for the module with the given components. -/
def Offers (fs : FileSystem) (version : Version) (base : String) (components : List String) (finding : ModuleFinding) :
    Prop :=
  ∃ packages last, components = packages ++ [last] ∧ Passable fs version base packages ∧
    Holds fs version (descend base packages) last finding

theorem isPackage_iff : isPackage fs version directory = true ↔
    fs.isFile (initFile directory) = true ∨ version = .python3 ∧ fs.isDirectory directory = true := by
  cases version <;> simp [isPackage, Version.isPython3]

theorem passable_nil : Passable fs version base [] :=
  fun _ hne hle => absurd (List.prefix_nil.1 hle) hne

theorem passable_cons {package : String} {packages : List String} : Passable fs version base (package :: packages) ↔
    isPackage fs version (FilePath.join base package) = true ∧
      Passable fs version (FilePath.join base package) packages := by
  rw [isPackage_iff]
  constructor
  · intro h
    have hfront (front : List String) (hle : front <+: packages) :=
      h (package :: front) (List.cons_ne_nil _ _) (List.cons_prefix_cons.2 ⟨rfl, hle⟩)
    exact ⟨hfront [] List.nil_prefix, fun front _ hle => hfront front hle⟩
  · rintro ⟨hfirst, hrest⟩ front hne hle
    obtain rfl | ⟨front, rfl, htail⟩ := List.prefix_cons_iff.1 hle
    · exact absurd rfl hne
    · cases front with
      | nil => exact hfirst
      | cons next front => exact hrest (next :: front) (List.cons_ne_nil _ _) htail

theorem holds_iff : Holds fs version directory last finding ↔
    finding ≠ .notFound ∧ searchBelow fs version directory [last] = finding := by
  constructor
  · intro h
    cases h with
    | package init => simp [searchBelow, init]
    | file noInit file => simp [searchBelow, noInit, file]
    | bare noInit noFile newer bare => simp [searchBelow, noInit, noFile, newer, bare, Version.isPython3]
  · rintro ⟨hfound, rfl⟩
    simp only [searchBelow] at hfound ⊢
    split_ifs at hfound ⊢ with hinit hfile hbare
    · exact .package hinit
    · exact .file (by simpa using hinit) hfile
    · simp only [Bool.and_eq_true] at hbare
      refine .bare (by simpa using hinit) (by simpa using hfile) ?_ hbare.2
      cases version with
      | python3 => rfl
      | python2 => exact absurd hbare.1 (by decide)
    · exact absurd rfl hfound

theorem not_offers_nil : ¬ Offers fs version base [] finding := by
  rintro ⟨packages, last, hsplit, -⟩
  cases packages <;> cases hsplit

theorem offers_singleton : Offers fs version base [last] finding ↔ Holds fs version base last finding := by
  constructor
  · rintro ⟨packages, last', hsplit, -, hholds⟩
    cases packages with
    | nil => exact List.singleton_inj.1 hsplit ▸ hholds
    | cons _ packages => cases packages <;> cases hsplit
  · exact fun hholds => ⟨[], last, rfl, passable_nil, hholds⟩

/-- What a directory offers for a longer name is what its package offers for the rest. -/
theorem offers_cons {package next : String} {rest : List String} :
    Offers fs version base (package :: next :: rest) finding ↔
      isPackage fs version (FilePath.join base package) = true ∧
        Offers fs version (FilePath.join base package) (next :: rest) finding := by
  constructor
  · rintro ⟨packages, last, hsplit, hpassable, hholds⟩
    cases packages with
    | nil => cases hsplit
    | cons first packages =>
      obtain ⟨rfl, hrest⟩ := List.cons.inj hsplit
      obtain ⟨hfirst, hpassable⟩ := passable_cons.1 hpassable
      exact ⟨hfirst, packages, last, hrest, hpassable, hholds⟩
  · rintro ⟨hfirst, packages, last, hrest, hpassable, hholds⟩
    exact ⟨package :: packages, last, congrArg (package :: ·) hrest, passable_cons.2 ⟨hfirst, hpassable⟩, hholds⟩

/-- Searching below a directory finds what the directory offers. -/
theorem offers_iff : Offers fs version base components finding ↔
    finding ≠ .notFound ∧ searchBelow fs version base components = finding := by
  induction components generalizing base with
  | nil => simp [not_offers_nil, searchBelow, eq_comm]
  | cons component rest ih =>
    cases rest with
    | nil => exact offers_singleton.trans holds_iff
    | cons next rest =>
      rw [offers_cons, ih]
      cases hpackage : isPackage fs version (FilePath.join base component) <;> simp [searchBelow, hpackage, eq_comm]

theorem not_offers_iff : (∀ finding, ¬ Offers fs version base components finding) ↔
    searchBelow fs version base components = .notFound := by
  constructor
  · exact fun h => Decidable.byContradiction fun hfound => h _ (offers_iff.2 ⟨hfound, rfl⟩)
  · rintro hnothing finding h
    obtain ⟨hfound, rfl⟩ := offers_iff.1 h
    exact hfound hnothing

/-! ## Along the search path -/

/-- The first member of a list with a property. -/
def IsFirst {α : Type} (p : α → Prop) (xs : List α) (x : α) : Prop :=
  ∃ before after, xs = before ++ x :: after ∧ p x ∧ ∀ y ∈ before, ¬ p y

theorem isFirst_cons {α : Type} {p : α → Prop} {x y : α} {xs : List α} :
    IsFirst p (y :: xs) x ↔ (p y ∧ x = y) ∨ (¬ p y ∧ IsFirst p xs x) := by
  constructor
  · rintro ⟨before, after, hsplit, hx, hbefore⟩
    cases before with
    | nil =>
      obtain ⟨rfl, -⟩ := List.cons.inj hsplit
      exact .inl ⟨hx, rfl⟩
    | cons z before =>
      obtain ⟨rfl, hrest⟩ := List.cons.inj hsplit
      obtain ⟨hz, hbefore⟩ := List.forall_mem_cons.1 hbefore
      exact .inr ⟨hz, before, after, hrest, hx, hbefore⟩
  · rintro (⟨hy, rfl⟩ | ⟨hy, before, after, rfl, hx, hbefore⟩)
    · exact ⟨[], xs, rfl, hy, by simp⟩
    · exact ⟨y :: before, after, rfl, hx, List.forall_mem_cons.2 ⟨hy, hbefore⟩⟩

/-- A directory offers a file for a module. -/
def OffersFile (fs : FileSystem) (version : Version) (components : List String) (base : String) : Prop :=
  ∃ path, Offers fs version base components (.found path)

/-- A directory offers no more than a bare directory for a module. -/
def OffersBare (fs : FileSystem) (version : Version) (components : List String) (base : String) : Prop :=
  ∃ path, Offers fs version base components (.namespacePackage path)

theorem searchBelow_cases (fs : FileSystem) (version : Version) (base : String) (components : List String) :
    (∃ path, searchBelow fs version base components = .found path) ∨
      (∃ path, searchBelow fs version base components = .namespacePackage path) ∨
        searchBelow fs version base components = .notFound := by
  cases hbelow : searchBelow fs version base components with
  | found path => exact .inl ⟨path, rfl⟩
  | namespacePackage path => exact .inr (.inl ⟨path, rfl⟩)
  | notFound => exact .inr (.inr rfl)
  | builtIn =>
    obtain ⟨_, _, -, -, hholds⟩ := offers_iff.2 ⟨by simp, hbelow⟩
    cases hholds

variable {path : String} {pending : Option String} {searchPaths : List String}

/-- The file that is found is the one that the first directory with any offers. -/
theorem searchAlong_eq_found : searchAlong fs version components pending searchPaths = .found path ↔
    ∃ base, IsFirst (OffersFile fs version components) searchPaths base ∧
      Offers fs version base components (.found path) := by
  induction searchPaths generalizing pending with
  | nil => cases pending <;> simp [searchAlong, IsFirst]
  | cons base rest ih =>
    -- A file ends the search; whatever else is there changes at most what is pending, on which files do not depend.
    obtain ⟨path', hbelow⟩ | ⟨path', hbelow⟩ | hbelow := searchBelow_cases fs version base components
    · simp [searchAlong, hbelow, isFirst_cons, OffersFile, offers_iff]
    · simp [searchAlong, hbelow, isFirst_cons, OffersFile, offers_iff, ih]
    · simp [searchAlong, hbelow, isFirst_cons, OffersFile, offers_iff, ih]

/-- A bare directory is found if no directory offers a file: the pending one or else the first one that is offered. -/
theorem searchAlong_eq_namespacePackage :
    searchAlong fs version components pending searchPaths = .namespacePackage path ↔
      (∀ base ∈ searchPaths, ¬ OffersFile fs version components base) ∧
        (pending = some path ∨ pending = none ∧ ∃ base, IsFirst (OffersBare fs version components) searchPaths base ∧
          Offers fs version base components (.namespacePackage path)) := by
  induction searchPaths generalizing pending with
  | nil => cases pending <;> simp [searchAlong, IsFirst]
  | cons base rest ih =>
    obtain ⟨path', hbelow⟩ | ⟨path', hbelow⟩ | hbelow := searchBelow_cases fs version base components
    · simp [searchAlong, hbelow, OffersFile, offers_iff]
    · -- The directory is kept only if none is pending yet.
      cases pending <;> simp [searchAlong, hbelow, isFirst_cons, OffersFile, OffersBare, offers_iff, ih]
    · simp [searchAlong, hbelow, isFirst_cons, OffersFile, OffersBare, offers_iff, ih]

/-- Nothing is found if nothing is pending and no directory offers anything. -/
theorem searchAlong_eq_notFound : searchAlong fs version components pending searchPaths = .notFound ↔
    pending = none ∧ ∀ base ∈ searchPaths, ∀ finding, ¬ Offers fs version base components finding := by
  induction searchPaths generalizing pending with
  | nil => cases pending <;> simp [searchAlong]
  | cons base rest ih =>
    obtain ⟨path', hbelow⟩ | ⟨path', hbelow⟩ | hbelow := searchBelow_cases fs version base components
    · simp [searchAlong, hbelow, not_offers_iff]
    · simp [searchAlong, hbelow, not_offers_iff, ih]
    · simp [searchAlong, hbelow, not_offers_iff, ih]

/-- Only the table of built-in modules knows modules without a path. -/
theorem searchAlong_ne_builtIn : searchAlong fs version components pending searchPaths ≠ .builtIn := by
  induction searchPaths generalizing pending with
  | nil => cases pending <;> simp [searchAlong]
  | cons base rest ih =>
    obtain ⟨path', hbelow⟩ | ⟨path', hbelow⟩ | hbelow := searchBelow_cases fs version base components
    · simp [searchAlong, hbelow]
    · simpa [searchAlong, hbelow] using ih
    · simpa [searchAlong, hbelow] using ih

end Search

/-! ## The search of an interpreter -/

theorem Holds.isFile {fs : FileSystem} {version : Version} {directory last path : String}
    (h : Holds fs version directory last (.found path)) : fs.isFile path = true := by
  cases h with
  | package init => exact init
  | file _ file => exact file

theorem Holds.isDirectory {fs : FileSystem} {version : Version} {directory last path : String}
    (h : Holds fs version directory last (.namespacePackage path)) :
    version = .python3 ∧ fs.isDirectory path = true := by
  cases h with
  | bare _ _ newer bare => exact ⟨newer, bare⟩

/-- **The order of module search.** For a module that is not built in the file that the earliest directory with any
offers is found, whatever bare directories come before it. If no directory offers a file, the earliest bare directory is
found, which the older version does not know; and if there is none either, nothing. Files that are found are files, and
directories are directories. -/
theorem find_exact (fs : FileSystem) (version : Version) (searchPaths : List String) {name : ModuleName}
    (hname : name.text ∉ builtInModules version) :
    (∀ path, find fs version searchPaths name = .found path ↔
      ∃ base, IsFirst (OffersFile fs version name.components) searchPaths base ∧
        Offers fs version base name.components (.found path)) ∧
    (∀ path, find fs version searchPaths name = .namespacePackage path ↔
      (∀ base ∈ searchPaths, ¬ OffersFile fs version name.components base) ∧
        ∃ base, IsFirst (OffersBare fs version name.components) searchPaths base ∧
          Offers fs version base name.components (.namespacePackage path)) ∧
    (find fs version searchPaths name = .notFound ↔
      ∀ base ∈ searchPaths, ∀ finding, ¬ Offers fs version base name.components finding) ∧
    find fs version searchPaths name ≠ .builtIn ∧
    (∀ path, find fs version searchPaths name = .found path → fs.isFile path = true) ∧
    ∀ path, find fs version searchPaths name = .namespacePackage path →
      version = .python3 ∧ fs.isDirectory path = true := by
  have hfind : find fs version searchPaths name = searchAlong fs version name.components none searchPaths :=
    if_neg (by simpa using hname)
  rw [hfind]
  refine ⟨fun path => searchAlong_eq_found, fun path => ?_, ?_, searchAlong_ne_builtIn, fun path hfound => ?_,
    fun path hbare => ?_⟩
  · have halong : searchAlong fs version name.components none searchPaths = .namespacePackage path ↔ _ :=
      searchAlong_eq_namespacePackage
    simpa using halong
  · have halong : searchAlong fs version name.components none searchPaths = .notFound ↔ _ := searchAlong_eq_notFound
    simpa using halong
  · obtain ⟨_, -, _, _, -, -, hholds⟩ := searchAlong_eq_found.1 hfound
    exact hholds.isFile
  · obtain ⟨-, hpending | ⟨-, _, -, _, _, -, -, hholds⟩⟩ := searchAlong_eq_namespacePackage.1 hbare
    · cases hpending
    · exact hholds.isDirectory

/-- A module file in the second directory wins over a bare directory in the first one. -/
theorem find_exact_fileBehindBare :
    let fs : FileSystem := ⟨(["/q/a/b.py"].contains ·), (["/p", "/p/a", "/p/a/b", "/q", "/q/a"].contains ·)⟩
    "a.b" ∉ builtInModules .python3 ∧ OffersBare fs .python3 ["a", "b"] "/p" ∧
      find fs .python3 ["/p", "/q"] ⟨"a.b"⟩ = .found "/q/a/b.py" ∧ fs.isFile "/q/a/b.py" = true ∧
      ∃ base, IsFirst (OffersFile fs .python3 ["a", "b"]) ["/p", "/q"] base ∧
        Offers fs .python3 base ["a", "b"] (.found "/q/a/b.py") := by
  intro fs
  have hname : "a.b" ∉ builtInModules .python3 := by decide
  have hbare : OffersBare fs .python3 ["a", "b"] "/p" := ⟨"/p/a/b", offers_iff.2 (by decide +kernel)⟩
  have hrun : find fs .python3 ["/p", "/q"] ⟨"a.b"⟩ = .found "/q/a/b.py" := by decide +kernel
  obtain ⟨hfound, -, -, -, hisFile, -⟩ := find_exact fs .python3 ["/p", "/q"] hname
  exact ⟨hname, hbare, hrun, hisFile _ hrun, (hfound _).1 hrun⟩

end Specializer.Locator
