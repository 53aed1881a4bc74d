import SoarProject.Session.Address
import SoarProject.Text.Blank
import SoarProject.Text.Case
import SoarProject.Text.Truth

/-!
# Settings

What is set by the environment: variables whose names begin with `SOARDB_`, in whatever case they are
written. A variable that is missing leaves the default.
-/

namespace SoarProject

/-- The settings of a program run. -/
structure Settings where
  /-- The database that is opened when none is named. -/
  databaseUrl : String := Address.defaultUrl
  /-- Whether statements are logged. -/
  sqlEcho : Bool := false
  /-- The level of log lines, in capital letters. -/
  logLevel : String := "INFO"
  /-- The encoding of source files. -/
  dumpEncoding : String := "utf-8"
  deriving DecidableEq

namespace Settings

/-- What the names of the variables begin with, in lower case. -/
def variablePrefix : String := "soardb_"

/-- The value of a setting in the environment; of several spellings of its name the last counts. -/
def lookup? (environment : List (String × String)) (name : String) : Option String :=
  (environment.reverse.find? fun (key, _) =>
    Text.lowerForAscii key == variablePrefix ++ name).map (·.2)

/-- Read the settings from the environment; otherwise the names of the settings that are invalid. -/
def ofEnvironment (environment : List (String × String)) : Except (List String) Settings :=
  let defaults : Settings := {}
  let text (name standard : String) := (lookup? environment name).getD standard
  let settings : Settings := {
    databaseUrl := text "database_url" defaults.databaseUrl
    logLevel :=
      (lookup? environment "log_level").elim defaults.logLevel fun s => Text.upper (Text.trimmed s)
    dumpEncoding := text "dump_encoding" defaults.dumpEncoding }
  match lookup? environment "sql_echo" with
  | none => .ok settings
  | some s =>
    match Text.truthOf? s with
    | some sqlEcho => .ok { settings with sqlEcho }
    | none => .error ["SQL_ECHO"]

/-- Whether the database that is opened when none is named is in memory. -/
def isInMemory (s : Settings) : Bool := Address.isInMemory s.databaseUrl

end Settings

end SoarProject
