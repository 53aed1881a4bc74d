import SoarProject.Text.Quoted
import SoarProject.Text.Similar

/-!
# Arguments of a command

Arguments are options and plain arguments. An option begins with two hyphens; its value follows it or
an equals sign. Two hyphens alone end the options.
-/

namespace SoarProject.CommandLine

/-- An option of a command. -/
structure OptionKind where
  /-- Its name, hyphens included. -/
  name : String
  /-- Whether a value follows it. -/
  takesValue : Bool
  deriving DecidableEq

/-- Arguments that were told apart. -/
structure Arguments where
  /-- The options in their order, with the values of those that take one. -/
  options : List (String × Option String) := []
  /-- The plain arguments. -/
  plain : List String := []

/-- Why arguments are refused. -/
inductive ArgumentError where
  /-- There is no such option, but perhaps there are some with similar names. -/
  | noSuchOption (name : String) (similar : List String)
  /-- The value of an option is missing. -/
  | missingValue (name : String)
  /-- The option takes no value. -/
  | unwantedValue (name : String)
  deriving DecidableEq

namespace Arguments

/-- Add an option in front. -/
def consOption (name : String) (value : Option String) (a : Arguments) : Arguments :=
  { a with options := (name, value) :: a.options }

/-- Add a plain argument in front. -/
def consPlain (s : String) (a : Arguments) : Arguments := { a with plain := s :: a.plain }

/-- The value that was given last for an option. -/
def value? (a : Arguments) (name : String) : Option String :=
  (a.options.reverse.lookup name).join

/-- Whether an option was given. -/
def has (a : Arguments) (name : String) : Bool := a.options.any (·.1 == name)

/-- Whether an argument is an option. -/
def isOption : List Char → Bool
  | '-' :: _ :: _ => true
  | _ => false

/-- The name of an option and the value behind an equals sign. -/
def splitValue (s : String) : String × Option String :=
  match s.toList.dropWhile (· != '=') with
  | _ :: value => (String.ofList (s.toList.takeWhile (· != '=')), some (String.ofList value))
  | [] => (s, none)

/-- The refusal of an unknown option. With a single hyphen only its first letter counts. -/
def unknown (kinds : List OptionKind) (s : String) : ArgumentError :=
  match s.toList with
  | '-' :: '-' :: _ =>
    let name := (splitValue s).1
    .noSuchOption name ((kinds.map (·.name)).filter (Text.areSimilar · name))
  | '-' :: c :: _ => .noSuchOption (String.ofList ['-', c]) []
  | _ => .noSuchOption s []

/-- Tell options and plain arguments apart. Unless they may be `mixed`, the first plain argument ends
the options. -/
def read (kinds : List OptionKind) (mixed : Bool) : List String → Except ArgumentError Arguments
  | [] => .ok {}
  | s :: rest =>
    if s = "--" then .ok { plain := rest }
    else if !isOption s.toList then
      if mixed then return (← read kinds mixed rest).consPlain s else .ok { plain := s :: rest }
    else
      let (name, attached) := splitValue s
      match kinds.find? (·.name == name), attached with
      | none, _ => .error (unknown kinds s)
      | some kind, some v =>
        if kind.takesValue then return (← read kinds mixed rest).consOption name v
        else .error (.unwantedValue name)
      | some kind, none =>
        if kind.takesValue then
          match rest with
          | [] => .error (.missingValue name)
          | v :: rest => return (← read kinds mixed rest).consOption name v
        else return (← read kinds mixed rest).consOption name none

end Arguments

end SoarProject.CommandLine
