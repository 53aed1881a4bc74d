import SoarProject.Archive.Restore
import SoarProject.CommandLine.Arguments
import SoarProject.Datamap.Generation
import SoarProject.Project.Rules
import SoarProject.Schema.Project

/-!
# Commands

The commands of the program: importing a source file into a database, with or without generating a
datamap, and printing a database as statements.
-/

namespace SoarProject.CommandLine

/-- The name of the program. -/
def program : String := "soardb"

/-- The version of the program. -/
def version : String := "0.1.0"

/-- What a command leaves behind. -/
structure Outcome where
  /-- The exit code. -/
  exitCode : Nat := 0
  /-- The failure that ended the command, if it was not reported. -/
  failure : Option Failure := none
  /-- What is printed. -/
  output : String := ""
  /-- What is printed as an error. -/
  errors : String := ""

namespace Outcome

/-- A command that only prints. -/
def printed (output : String) : Outcome := { output }

/-- A command that failed with a message. -/
def failed (message : String) : Outcome :=
  { exitCode := 1, errors := "Error: " ++ message ++ "\n" }

/-- A command that a failure ended. -/
def aborted (failure : Failure) : Outcome := { exitCode := 1, failure := some failure }

end Outcome

/-! ### Help -/

/-- A command with its help. -/
structure Command where
  /-- The names by which it is called. -/
  path : String
  /-- What follows the name. -/
  usage : String
  /-- What it does. -/
  purpose : String
  /-- Its options and commands, as help shows them. -/
  details : String
  /-- Its options. -/
  options : List OptionKind

namespace Command

/-- The line that shows how a command is called. -/
def usageLine (c : Command) : String := "Usage: " ++ c.path ++ " " ++ c.usage ++ "\n"

/-- The help for a command. -/
def help (c : Command) : String := c.usageLine ++ "\n  " ++ c.purpose ++ "\n\n" ++ c.details

/-- A command that was called wrongly. -/
def misused (c : Command) (message : String) : Outcome :=
  { exitCode := 2
    errors := c.usageLine ++ "Try '" ++ c.path ++ " --help' for help.\n\nError: " ++ message ++ "\n" }

/-- A name that there is not, and the similar ones that there are. -/
def unknownName (kind name : String) (similar : List String) : String :=
  "No such " ++ kind ++ " " ++ Text.quoted name ++ "." ++
    match similar with
    | [] => ""
    | [other] => " Did you mean " ++ Text.quoted other ++ "?"
    | others =>
      " (Did you mean one of: " ++ ", ".intercalate ((others.mergeSort (· ≤ ·)).map Text.quoted) ++
        "?)"

/-- A command whose arguments are refused. -/
def refused (c : Command) : ArgumentError → Outcome
  | .noSuchOption name similar => c.misused (unknownName "option" name similar)
  | .missingValue name =>
    { Outcome.failed ("Option " ++ Text.quoted name ++ " requires an argument.") with exitCode := 2 }
  | .unwantedValue name =>
    { Outcome.failed ("Option " ++ Text.quoted name ++ " does not take a value.") with exitCode := 2 }

/-- A command with arguments that nothing takes. -/
def surplus (c : Command) (arguments : List String) : Outcome :=
  c.misused ("Got unexpected extra argument" ++ (if arguments.length = 1 then "" else "s") ++
    " (" ++ " ".intercalate arguments ++ ")")

/-- All commands. -/
def main : Command where
  path := program
  usage := "[OPTIONS] COMMAND [ARGS]..."
  purpose := program ++ " - Soar project database tools."
  details :=
    "Options:\n  --version  Show the version and exit.\n  --help     Show this message and exit.\n\n" ++
    "Commands:\n  dump    Print the database as SQL statements.\n" ++
    "  import  Import the rules of a Soar source file.\n"
  options := [⟨"--version", false⟩, ⟨"--help", false⟩]

/-- Importing a source file. -/
def importing : Command where
  path := program ++ " import"
  usage := "[OPTIONS] FILE"
  purpose := "Import the rules of a Soar source file."
  details :=
    "Options:\n  --db TEXT             Database URL\n" ++
    "  --problem-space TEXT  Create a problem space joined to every imported rule and\n" ++
    "                        generate its datamap\n" ++
    "  --help                Show this message and exit.\n"
  options := [⟨"--db", true⟩, ⟨"--problem-space", true⟩, ⟨"--help", false⟩]

/-- Printing a database. -/
def dumping : Command where
  path := program ++ " dump"
  usage := "[OPTIONS]"
  purpose := "Print the database as SQL statements."
  details := "Options:\n  --db TEXT  Database URL\n  --help     Show this message and exit.\n"
  options := [⟨"--db", true⟩, ⟨"--help", false⟩]

end Command

/-! ### Failures -/

/-- What follows the report of an error that the store words. -/
def background (code : String) : String :=
  "\n(Background on this error at: https://sqlalche.me/e/21/" ++ code ++ ")"

/-- How a statement is shown that the store refused. -/
def shownStatement (text : String) : String := "\n[SQL: " ++ text ++ "]"

/-- The first statement that changes a new database, as it is shown. -/
def shownCreation : String :=
  Registry.project.layout.head?.elim "" fun (n, r) =>
    shownStatement ("\nCREATE TABLE " ++ Statement.definitionText n.text (.ofRelation r) ++ "\n\n")

/-- The first statement that changes the database on an import, as it is shown. -/
def shownInsertion (agent : String) : String :=
  shownStatement "INSERT INTO agents (name) VALUES (?)" ++
    "\n[parameters: (" ++ Text.quoted agent ++ ",)]"

/-- How an error of the store is reported, where `change` is the first statement that changes it. -/
def storageReport (change : String) : StorageError → String
  | .badUrl => "Could not parse SQLAlchemy URL from given URL string"
  | .unknownKind kind => "Can't load plugin: sqlalchemy.dialects:" ++ kind
  | .unknownExtension name => "Can't load plugin: sqlalchemy.plugins:" ++ name
  | .hostInUrl url =>
    "Invalid SQLite URL: " ++ url ++ "\nValid SQLite URL forms are:\n" ++
      " sqlite:///:memory: (or, sqlite://)\n sqlite:///relative/path/to/file.db\n" ++
      " sqlite:////absolute/path/to/file.db"
  | .notADatabase =>
    "(sqlite3.DatabaseError) file is not a database" ++
      shownStatement "PRAGMA main.table_info(\"agents\")" ++ background "4xp6"
  | .readOnly =>
    "(sqlite3.OperationalError) attempt to write a readonly database" ++ change ++ background "e3q8"
  | e => "(sqlite3.OperationalError) " ++ e.message?.getD "" ++ background "e3q8"

/-- How a failure is reported, if it is one that a command expects. -/
def report? (change : String) : Failure → Option String
  | .storage e => some (storageReport change e)
  | .parse e => some e.message
  | f@(.noTableForPart _) | f@(.noChildTableForPart ..) | f@(.productionOutsideRule ..)
  | f@(.noChildTable ..) | f@(.notAChild ..) | f@(.notDirectedJoined ..) | f@(.notJoined ..) =>
    f.message?
  | _ => none

/-- A command that ended in a failure. -/
def ended (task change : String) (failure : Failure) : Outcome :=
  match report? change failure with
  | some message => .failed (task ++ ": " ++ message)
  | none => .aborted failure

/-! ### Running -/

/-- Run a command on the database of an address, where `change` is the first statement of the command
that changes it. Gives the files afterwards. -/
def withDatabase (disk : Disk) (url task change : String) (c : Change String) : Outcome × Disk :=
  match Session.start .project url disk with
  | (session, .error e) =>
    (ended ("Cannot open database " ++ url) shownCreation e, session.disk)
  | (session, .ok ()) =>
    match c.run session with
    | (.ok output, after) => (.printed output, after.disconnect.disk)
    | (.error e, after) => (ended task change e, after.disconnect.disk)

/-- Import a source file. With a problem space, its datamap is generated from all rules of the file;
gives what was corrected, line by line. -/
def importSource (file problemSpace : String) : Change String := do
  let agent ← importFile file
  if problemSpace = "" then return ""
  let space ← createProblemSpace agent.row (.text problemSpace)
  Change.batch .databaseChanged do
    (← agent.row.childrenOfType .rules).forM fun rule => rule.join space.row
  let (corrections, _) ← (generateDatamap id).on space
  let lines ← corrections.mapM fun c => c.text.on c.anchor
  return String.join (lines.map fun (line, _) => line ++ "\n")

/-- The command `import`. -/
def runImport (disk : Disk) (arguments : Arguments) : Outcome × Disk :=
  let command := Command.importing
  let misused (file problem : String) : Outcome × Disk :=
    (command.misused
      ("Invalid value for 'FILE': File " ++ Text.quoted file ++ " " ++ problem ++ "."), disk)
  if arguments.has "--help" then (.printed command.help, disk)
  else
    match arguments.plain with
    | [] => (command.misused "Missing argument 'FILE'.", disk)
    | file :: others =>
      match disk.follow file with
      | .directory _ => misused file "is a directory"
      | .file .. =>
        if others.isEmpty then
          withDatabase disk ((arguments.value? "--db").getD "") ("Import of " ++ file ++ " failed")
            (shownInsertion (fileStem file))
            (importSource file ((arguments.value? "--problem-space").getD ""))
        else (command.surplus others, disk)
      | _ => misused file "does not exist"

/-- The command `dump`. -/
def runDump (disk : Disk) (arguments : Arguments) : Outcome × Disk :=
  let command := Command.dumping
  if arguments.has "--help" then (.printed command.help, disk)
  else if arguments.plain.isEmpty then
    withDatabase disk ((arguments.value? "--db").getD "") "Dump failed" "" do return ← Query.dump
  else (command.surplus arguments.plain, disk)

/-- Read the arguments of a command and run it. -/
def withArguments (command : Command) (disk : Disk) (arguments : List String)
    (run : Disk → Arguments → Outcome × Disk) : Outcome × Disk :=
  match Arguments.read command.options true arguments with
  | .error e => (command.refused e, disk)
  | .ok arguments => run disk arguments

/-- What the options before a command call for by themselves. -/
def answerOptions (arguments : List String) : Except ArgumentError (Option String × List String) := do
  let read ← Arguments.read Command.main.options false arguments
  match read.options with
  | ("--version", _) :: _ => return (some (program ++ ", version " ++ version ++ "\n"), [])
  | _ :: _ => return (some Command.main.help, [])
  | [] => return (none, read.plain)

/-- The refusal of a command that there is not. One whose name begins with a hyphen is taken for
options first. -/
def unknownCommand (name : String) (rest : List String) : Outcome :=
  let command := Command.main
  let refusal := command.misused (Command.unknownName "command" name
    (["dump", "import"].filter (Text.areSimilar · name)))
  if name.startsWith "-" then
    match answerOptions (name :: rest) with
    | .error e => command.refused e
    | .ok (some answer, _) => .printed answer
    | .ok (none, _) => refusal
  else refusal

/-- Run the program with some arguments. Gives the files afterwards. -/
def run (disk : Disk) (arguments : List String) : Outcome × Disk :=
  let command := Command.main
  if arguments.isEmpty then ({ exitCode := 2, errors := command.help }, disk)
  else
    match answerOptions arguments with
    | .error e => (command.refused e, disk)
    | .ok (some answer, _) => (.printed answer, disk)
    | .ok (none, []) => (command.misused "Missing command.", disk)
    | .ok (none, "import" :: rest) => withArguments .importing disk rest runImport
    | .ok (none, "dump" :: rest) => withArguments .dumping disk rest runDump
    | .ok (none, name :: rest) => (unknownCommand name rest, disk)

end SoarProject.CommandLine
