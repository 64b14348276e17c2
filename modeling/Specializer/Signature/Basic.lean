import Specializer.Builtin.Evaluate

/-!
# Signatures of builtins

How a builtin takes its arguments. Binding assigns the arguments of a call to the parameters, positional ones first,
or tells why the call raises a `TypeError`, in the words of the builtin.
-/

namespace Specializer

/-- How a builtin words the complaint about the number of its arguments. -/
inductive ArityWording where
  /-- As in `len() takes exactly one argument (2 given)`. -/
  | takes
  /-- As in `dict expected at most 1 arguments, got 2`. -/
  | expected
  deriving DecidableEq, Repr

/-- The name of a wording. -/
def ArityWording.name : ArityWording → String
  | .takes => "Takes"
  | .expected => "Expected"

/-- The signature of a builtin. -/
structure Signature where
  name : String
  params : List String
  /-- How many parameters at the end may be left out. -/
  defaultCount : Nat
  acceptsKeywords : Bool
  /-- Keywords never name a parameter. -/
  positionalOnly : Bool := false
  /-- Positional arguments beyond the parameters are collected. -/
  starList : Bool := false
  /-- Keywords that name no parameter are collected. -/
  starDict : Bool := false
  wording : ArityWording
  evaluator : Option PureBuiltin := none
  deriving DecidableEq, Repr

/-- Why arguments cannot be bound. -/
inductive BindError where
  | keywordsRefused
  /-- The wrong number of arguments. -/
  | wrongCount (given : Nat)
  /-- A parameter got a second value. -/
  | repeated (keyword : String)
  | unexpected (keyword : String)
  deriving DecidableEq, Repr

namespace Signature

/-- How many arguments are needed at least. -/
def minArgs (s : Signature) : Nat := s.params.length - s.defaultCount

/-- A signature in one line. -/
def describe (s : Signature) : String :=
  let quoted (text : String) : String := "\"" ++ text ++ "\""
  let params := String.intercalate ", " (s.params.map quoted)
  let simulated := if s.evaluator.isSome then "true" else "false"
  "BuiltinParameterSpec \x7b name: " ++ quoted s.name ++ ", params: [" ++ params ++ "], default_count: "
    ++ toString s.defaultCount ++ ", simulated: " ++ simulated ++ " \x7d"

/-- The noun after a number: `argument` after one, `arguments` after any other. -/
def plural (count : Nat) : String := if count = 1 then "argument" else "arguments"

/-- The complaint about a wrong number of arguments. -/
def wrongCountMessage (s : Signature) (given : Nat) : String :=
  let min := s.minArgs
  let max := s.params.length
  match s.wording with
  | .takes =>
    if min = max then
      if max = 1 then s!"{s.name}() takes exactly one argument ({given} given)"
      else s!"{s.name}() takes exactly {max} {plural max} ({given} given)"
    else if given > max then s!"{s.name}() takes at most {max} {plural max} ({given} given)"
    else s!"{s.name}() takes at least {min} {plural min} ({given} given)"
  | .expected =>
    if min = max then s!"{s.name} expected {max} arguments, got {given}"
    else if given > max then s!"{s.name} expected at most {max} arguments, got {given}"
    else s!"{s.name} expected at least {min} arguments, got {given}"

/-- The message of the `TypeError` a call raises. -/
def errorMessage (s : Signature) : BindError → String
  | .keywordsRefused =>
    if s.starList then s!"{s.name} does not take keyword arguments" else s!"{s.name}() takes no keyword arguments"
  | .wrongCount given => s.wrongCountMessage given
  | .repeated keyword => s!"{s.name}() got multiple values for keyword argument '{keyword}'"
  | .unexpected keyword => s!"{s.name}() got an unexpected keyword argument '{keyword}'"

/-- The parameter a keyword names. -/
def position? (s : Signature) (keyword : String) : Option Nat :=
  if s.positionalOnly then none else s.params.idxOf? keyword

/-- Whether a list never goes down. -/
def isNondecreasing : List Nat → Bool
  | a :: b :: rest => a ≤ b && isNondecreasing (b :: rest)
  | _ => true

section Binding

variable {α : Type}

/-- Whether the keywords that name parameters stand in the order of the parameters, so that moving their values into
the parameters keeps the order of evaluation. -/
def keywordsInOrder (s : Signature) (keywords : List (String × α)) : Bool :=
  isNondecreasing (keywords.filterMap fun (keyword, _) => s.position? keyword)

/-- The arguments with only the positional ones bound. -/
def bindPositional (s : Signature) (positional : List α) : BoundArguments α :=
  { values := (List.range s.params.length).map fun index => positional[index]?
    starList := positional.drop s.params.length }

/-- Binds one keyword argument. -/
def bindKeyword (s : Signature) (args : BoundArguments α) (keyword : String × α) :
    Except BindError (BoundArguments α) :=
  match s.position? keyword.1 with
  | some index =>
    if (args.get? index).isSome then throw (.repeated keyword.1)
    else return { args with values := args.values.set index (some keyword.2) }
  | none =>
    if s.starDict then return { args with starDict := args.starDict ++ [keyword] }
    else throw (.unexpected keyword.1)

/-- The number of arguments a complaint speaks of. -/
def countGiven (s : Signature) (positional : List α) (keywords : List (String × α)) : Nat :=
  match s.wording with
  | .expected => positional.length
  | .takes => positional.length + keywords.length

/-- Assigns the arguments of a call to the parameters. -/
def bind (s : Signature) (positional : List α) (keywords : List (String × α)) :
    Except BindError (BoundArguments α) := do
  if !keywords.isEmpty && !s.acceptsKeywords then throw .keywordsRefused
  let given := s.countGiven positional keywords
  if s.params.length < positional.length && !s.starList then throw (.wrongCount given)
  let args ← keywords.foldlM s.bindKeyword (s.bindPositional positional)
  if (args.values.take s.minArgs).any Option.isNone then throw (.wrongCount given)
  return args

end Binding

end Signature

end Specializer
