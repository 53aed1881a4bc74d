import SoarProject.Session.Setting

/-!
# Locations

A location is a path with settings, each part of which may have percent codes:

    file://localhost/path?name=value&name=value

The host may be missing. A sharp sign ends a location, and the code of the character NUL ends its part.
`Location.opening` is what the settings come to: how the database is opened, whether it is shared, and by
which system of files. The last setting of a name counts.
-/

namespace SoarProject

/-- A path with settings. -/
structure Location where
  /-- The path. -/
  path : String
  /-- The settings in their order. -/
  settings : List (String × String)
  deriving DecidableEq

/-- How a location is opened. -/
structure Opening where
  /-- The mode. -/
  mode : String := "rwc"
  /-- Whether all who open it share one store. -/
  isShared : Bool := false
  /-- The system of files. -/
  system : String := "unix"

namespace Location

/-- What a location begins with. -/
def scheme : List Char := "file:".toList

/-- A part of a location as it is meant. -/
def part (s : List Char) : String := ((Text.percentDecode s).splitOn "\x00").headD ""

/-- What follows the host, if one is named. It can only be this machine. -/
def behindHost : List Char → Except StorageError (List Char)
  | '/' :: '/' :: rest =>
    let (host, rest) := Url.takeUntil ['/'] rest
    if host.isEmpty ∨ host = "localhost".toList then .ok rest
    else .error (.unknownHost (String.ofList host))
  | s => .ok s

/-- The settings in a text. One without a name is left out. -/
def settingsOf (s : List Char) : List (String × String) :=
  ((String.ofList s).splitOn "&").filterMap fun field =>
    let (name, value) := Url.takeUntil ['='] field.toList
    if part name = "" then none else some (part name, part (value.drop 1))

/-- Read a location without its scheme. -/
def ofText (s : List Char) : Except StorageError Location := do
  let (path, settings) := Url.takeUntil ['?'] (Url.takeUntil ['#'] (← behindHost s)).1
  return ⟨part path, settingsOf (settings.drop 1)⟩

/-- The modes with their ranks: reading, writing, creating, and doing so in memory. -/
def modes : List (String × Nat) := [("ro", 1), ("rw", 2), ("rwc", 6), ("memory", 128)]

/-- The rank of a mode. -/
def rank (mode : String) : Nat := (modes.lookup mode).getD 0

/-- The mode after a setting of it. A mode cannot allow more than the one before, but each may be
given up for memory. -/
def changeMode (before after : String) : Except StorageError String :=
  if rank after = 0 then .error (.unknownMode "access" after)
  else if after ≠ "memory" ∧ rank before < rank after then .error (.modeRefused after)
  else .ok after

/-- Take a setting into account. -/
def take (o : Opening) : String × String → Except StorageError Opening
  | ("mode", mode) => return { o with mode := ← changeMode o.mode mode }
  | ("cache", cache) =>
    if cache = "shared" ∨ cache = "private" then .ok { o with isShared := cache = "shared" }
    else .error (.unknownMode "cache" cache)
  | ("vfs", system) => .ok { o with system }
  | _ => .ok o

/-- The system that keeps files in memory. -/
def memorySystem : String := "memdb"

/-- The systems of files that there are. -/
def systems : List String := ["unix", "unix-none", "unix-dotfile", "unix-excl", memorySystem]

/-- How a location is opened. -/
def opening (l : Location) : Except StorageError Opening := do
  let o ← l.settings.foldlM take {}
  if systems.contains o.system then return o else throw (.unknownSystem o.system)

/-- Whether a setting is true that is false by default: it is a number other than zero in its lowest
byte, or one of three words. -/
def isOn (value : String) : Bool :=
  let digits := value.toList.takeWhile Char.isDigit
  if digits.isEmpty then ["on", "yes", "true"].contains (value.map Char.toLower)
  else
    let n := (Number.readInt? (String.ofList digits)).getD 0
    n ≤ Url.maxSetting && n % 256 != 0

/-- Whether a location is said not to change. -/
def isImmutable (l : Location) : Bool := (l.settings.lookup "immutable").any isOn

end Location

end SoarProject
