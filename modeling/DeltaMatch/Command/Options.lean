/-! Long options on a command line: `--name value` or `--name=value`, and `--name`
alone for a switch. A separate value must not start with a dash, unless it is the
dash itself. Only repeatable options may be given more than once. -/
namespace DeltaMatch
namespace Command

/-- What an option looks like and which values it takes. -/
structure OptionForm where
  name : String
  /-- Whether a value belongs to the option. -/
  takesValue : Bool := true
  repeatable : Bool := false
  required : Bool := false
  /-- Whether a value is well-formed. -/
  accepts : String → Bool := fun _ => true

/-- An option as it was given; a switch has an empty value. -/
structure Given where
  name : String
  value : String
  deriving DecidableEq

/-- Whether an argument cannot be a separate value. -/
def isDashed (arg : String) : Bool :=
  match arg.toList with
  | '-' :: _ :: _ => true
  | _ => false

/-- The name of a long option and the value attached to it. -/
def longOption? (arg : String) : Option (String × Option String) :=
  match arg.toList with
  | '-' :: '-' :: rest =>
    let name := String.ofList (rest.takeWhile (· ≠ '='))
    match rest.dropWhile (· ≠ '=') with
    | [] => some (name, none)
    | _ :: value => some (name, some (String.ofList value))
  | _ => none

/-- Whether an option may be given after some others. -/
def mayFollow (form : OptionForm) (before : List Given) : Bool :=
  form.repeatable || !before.any (·.name == form.name)

/-- The option that an argument begins, and whether its value is the argument behind. -/
def optionAt (forms : List OptionForm) (before : List Given) (arg : String)
    (behind : Option String) : Option (Given × Bool) := do
  let (name, attached) ← longOption? arg
  let form ← forms.find? (·.name == name)
  guard (mayFollow form before)
  match form.takesValue, attached, behind with
  | true, some value, _ =>
    guard (form.accepts value)
    return (⟨name, value⟩, false)
  | true, none, some value =>
    guard (!isDashed value && form.accepts value)
    return (⟨name, value⟩, true)
  | false, none, _ => return (⟨name, ""⟩, false)
  | _, _, _ => none

/-- Takes the options of a command line in the order in which they are given, or
nothing when one is unknown, malformed or repeated. A final double dash is
ignored. -/
def scanOptions (forms : List OptionForm) : List Given → List String → Option (List Given)
  | before, [] => some before
  | before, ["--"] => some before
  | before, arg :: rest =>
    match optionAt forms before arg rest.head?, rest with
    | some (g, false), rest => scanOptions forms (before ++ [g]) rest
    | some (g, true), _ :: rest => scanOptions forms (before ++ [g]) rest
    | _, _ => none

/-- The options of a command line, among which all required ones are found. -/
def readOptions (forms : List OptionForm) (args : List String) : Option (List Given) := do
  let given ← scanOptions forms [] args
  guard (forms.all fun form => !form.required || given.any (·.name == form.name))
  return given

namespace Given

/-- The value of an option that is given at most once. -/
def valueOf? (given : List Given) (name : String) : Option String :=
  (given.find? (·.name == name)).map (·.value)

/-- The values of an option in the order in which they are given. -/
def valuesOf (given : List Given) (name : String) : List String :=
  (given.filter (·.name == name)).map (·.value)

/-- The positions of an option among those that are given. -/
def positionsOf (given : List Given) (name : String) : List Nat :=
  (given.zipIdx.filter (·.1.name == name)).map (·.2)

/-- Whether an option is given. -/
def has (given : List Given) (name : String) : Bool := given.any (·.name == name)

end Given
end Command
end DeltaMatch
