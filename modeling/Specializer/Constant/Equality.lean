import Specializer.Constant.Basic

/-!
# Equality of constants

Two notions: `eqv` is the equality of the language, where numbers compare across types and dictionaries compare as
sets of entries; `same` compares shape and content, and tells an integer from a truth value.
-/

namespace Specializer.Constant

/-- The comparison of two numbers: integers exactly, and as floats as soon as one of them is a float. -/
def numbersEqv (a b : Constant) : Bool :=
  match a.asInt?, b.asInt? with
  | some m, some n => m == n
  | _, _ =>
    if a.isFloat || b.isFloat then
      match a.asFloat?, b.asFloat? with
      | some x, some y => x == y
      | _, _ => false
    else false

mutual

/-- Equality in the language. Ranges are equal when they have the same members. -/
def eqv : Constant → Constant → Bool
  | .none, .none => true
  | .str s, .str t => s == t
  | .bytes s, .bytes t => s == t
  | .tuple s, .tuple t => eqvItems s t
  | .list s, .list t => eqvItems s t
  | .dict s, .dict t => s.length == t.length && entriesWithin s t
  | .range r, .range s => r.elements == s.elements
  | a, b => numbersEqv a b
termination_by structural a => a

/-- Equal length and pairwise equal. -/
def eqvItems : List Constant → List Constant → Bool
  | [], [] => true
  | a :: as, b :: bs => a.eqv b && eqvItems as bs
  | _, _ => false
termination_by structural as => as

/-- Whether every entry has an equal one among the others. -/
def entriesWithin : List (Constant × Constant) → List (Constant × Constant) → Bool
  | [], _ => true
  | (key, value) :: rest, others =>
    others.any (fun other => key.eqv other.1 && value.eqv other.2) && entriesWithin rest others
termination_by structural entries => entries

end

mutual

/-- Same constructor and same content; floats compare as numbers. -/
def same : Constant → Constant → Bool
  | .none, .none => true
  | .bool a, .bool b => a == b
  | .int m, .int n => m == n
  | .long m, .long n => m == n
  | .float x, .float y => x == y
  | .str s, .str t => s == t
  | .bytes s, .bytes t => s == t
  | .tuple s, .tuple t => sameItems s t
  | .list s, .list t => sameItems s t
  | .dict s, .dict t => sameEntries s t
  | .range r, .range s => r == s
  | _, _ => false
termination_by structural a => a

/-- The same items in the same order. -/
def sameItems : List Constant → List Constant → Bool
  | [], [] => true
  | a :: as, b :: bs => a.same b && sameItems as bs
  | _, _ => false
termination_by structural as => as

/-- The same entries in the same order. -/
def sameEntries : List (Constant × Constant) → List (Constant × Constant) → Bool
  | [], [] => true
  | (k, v) :: rest, (k', v') :: rest' => k.same k' && v.same v' && sameEntries rest rest'
  | _, _ => false
termination_by structural entries => entries

end

end Specializer.Constant
