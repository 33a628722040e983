import ScriptOutline.Number.Decimal
import ScriptOutline.Text.Escaped

/-!
What is wrong with a text that should hold settings.
-/

namespace ScriptOutline

/-- The beginning of a value that does not fit. -/
inductive JsonValue where
  | null
  | boolean (value : Bool)
  | integer (value : Int)
  /-- A number with a point or an exponent, or too large for an integer. -/
  | real (negative : Bool) (size : Binary64)
  | string (value : String)
  | sequence
  | map
deriving DecidableEq, Repr

def JsonValue.text : JsonValue → String
  | null => "null"
  | boolean value => "boolean `" ++ toString value ++ "`"
  | integer value => "integer `" ++ toString value ++ "`"
  | real negative size => "floating point `" ++ (if negative then "-" else "") ++ size.text ++ "`"
  | string value => "string " ++ Text.escaped value
  | sequence => "sequence"
  | map => "map"

/-- What settings have a place for. -/
inductive JsonShape where
  | string
  | sequence
  | map
  | settings
deriving DecidableEq, Repr

def JsonShape.text : JsonShape → String
  | string => "a string"
  | sequence => "a sequence"
  | map => "a map"
  | settings => "struct DocscanConfig"

inductive SettingsKey where
  | baseUrl
  | moduleMap
  | exclude
deriving DecidableEq, Repr

namespace SettingsKey

def all : List SettingsKey := [baseUrl, moduleMap, exclude]

def text : SettingsKey → String
  | baseUrl => "baseUrl"
  | moduleMap => "moduleMap"
  | exclude => "exclude"

def ofText? (s : String) : Option SettingsKey := all.find? (·.text == s)

end SettingsKey

inductive SettingsFault where
  /-- The text ends too early. -/
  | ended
  /-- The text is not JSON. -/
  | malformed
  | unknownKey (key : String)
  | repeatedKey (key : SettingsKey)
  | unfit (found : JsonValue) (expected : JsonShape)
deriving DecidableEq, Repr

namespace SettingsFault

def text : SettingsFault → String
  | ended => "unexpected end of the text"
  | malformed => "malformed JSON"
  | unknownKey key =>
    "unknown field `" ++ key ++ "`, expected one of " ++
      ", ".intercalate (SettingsKey.all.map fun k => "`" ++ k.text ++ "`")
  | repeatedKey key => "duplicate field `" ++ key.text ++ "`"
  | unfit found expected => "invalid type: " ++ found.text ++ ", expected " ++ expected.text

end SettingsFault

end ScriptOutline
