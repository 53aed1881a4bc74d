import SoarProject.Session.Url
import SoarProject.Text.Truth

/-!
# Settings of an address

Some settings of an address tell how to open its database: two truth values, a number and two
integers. None of them changes what the database holds, but each must be well formed
(`Url.checkSettings`). If the setting `uri` is true, the path is a location, which has settings of its
own: all those of the address that have no meaning for the opening itself (`Url.location`).
-/

namespace SoarProject.Url

/-- The values that an address gives to a setting, in order. -/
def valuesOf (u : Url) (name : String) : List String :=
  (u.settings.filter (·.1 == name)).map (·.2)

/-- Read a setting that is a truth value and false by default. Given more than once it is true. -/
def flag (u : Url) (name : String) : Except Failure Bool :=
  match u.valuesOf name with
  | [] => .ok false
  | [text] => ((Text.truthOf? (Text.trimmed text)).map Except.ok).getD (.error .badSetting)
  | _ => .ok true

/-- Read a setting that is a number, if it is there. It can be given only once. -/
def number? {α : Type} (u : Url) (read : String → Option α) (name : String) :
    Except Failure (Option α) :=
  match u.valuesOf name with
  | [] => .ok none
  | [text] => ((read text).map fun x => .ok (some x)).getD (.error .badSetting)
  | _ => .error .repeatedSetting

/-- The largest integer of a setting. -/
def maxSetting : Int := 0x7fffffff

/-- The settings of the opening. -/
def openingSettings : List String :=
  ["uri", "timeout", "isolation_level", "detect_types", "check_same_thread", "cached_statements"]

/-- The settings of an address must be well formed. Gives whether its path is a location. -/
def checkSettings (u : Url) : Except Failure Bool := do
  let isLocation ← u.flag "uri"
  let _ ← u.number? Number.readFloat? "timeout"
  let types ← u.number? Number.readInt? "detect_types"
  let _ ← u.flag "check_same_thread"
  let kept ← u.number? Number.readInt? "cached_statements"
  if (types.toList ++ kept.toList).any fun n => n < -maxSetting - 1 || maxSetting < n then
    throw .integerOutOfRange
  return isLocation

/-- The values of a setting as a location writes them. -/
def locationValue (u : Url) (name : String) : String :=
  match u.valuesOf name with
  | [value] => value
  | values => "(" ++ ", ".intercalate (values.map Text.quoted) ++ ")"

/-- The location that an address names, with its own settings by name. -/
def location? (u : Url) : Option String :=
  let names := ((u.settings.map (·.1)).filter (!openingSettings.contains ·)).eraseDups
  let settings := (names.mergeSort (· ≤ ·)).map fun name => name ++ "=" ++ u.locationValue name
  u.database.map fun path =>
    if settings.isEmpty then path else path ++ "?" ++ "&".intercalate settings

end SoarProject.Url
