import ScriptOutline.Repeat
import ScriptOutline.Settings.Basic
import ScriptOutline.Settings.Number
import ScriptOutline.Text.Cursor

/-!
Settings read from JSON.  Reading stops at the first problem in the text, be
it that the text is no JSON or that it says something else than settings.
-/

namespace ScriptOutline

namespace SettingsReader

open Text

abbrev Parse := EStateM SettingsFault (List Char)

def isBlank (c : Char) : Bool := c == ' ' || c == '\n' || c == '\t' || c == '\r'

/-- The next character that is not blank, which is left to be read. -/
def peek : Parse (Option Char) := do
  modify (·.dropWhile isBlank)
  return (← get).head?

def pass : Parse Unit := modify List.tail

def escaped? (c : Char) : Option Char :=
  if c == '\x22' || c == '\\' || c == '/' then some c
  else if c == 'b' then some '\x08'
  else if c == 'f' then some '\x0c'
  else if c == 'n' then some '\n'
  else if c == 'r' then some '\r'
  else if c == 't' then some '\t'
  else none

def fourDigits (cs : List Char) : Except SettingsFault Nat :=
  if byteLength cs < 4 then .error .ended
  else if (cs.take 4).all isHexDigit then .ok (hexNumber (cs.take 4))
  else .error .malformed

def isHighSurrogate (n : Nat) : Bool := 0xd800 ≤ n && n ≤ 0xdbff

def isLowSurrogate (n : Nat) : Bool := 0xdc00 ≤ n && n ≤ 0xdfff

/-- The character behind `\u` and the number of characters that write it.
Characters beyond 16 bits are written as two surrogates. -/
def codePoint (cs : List Char) : Except SettingsFault (Char × Nat) := do
  let n ← fourDigits cs
  if isLowSurrogate n then .error .malformed
  else if isHighSurrogate n then
    match cs.drop 4 with
    | [] | ['\\'] => .error .ended
    | '\\' :: 'u' :: rest =>
      let m ← fourDigits rest
      if isLowSurrogate m then
        return (Char.ofNat (0x10000 + (n - 0xd800) * 0x400 + (m - 0xdc00)), 10)
      else .error .malformed
    | _ => .error .malformed
  else return (Char.ofNat n, 4)

/-- A string behind its opening mark: its value, and what follows it. -/
def stringRest (cs : List Char) : Except SettingsFault (List Char × List Char) :=
  match cs with
  | [] => .error .ended
  | c :: rest =>
    if c == '\x22' then .ok ([], rest)
    else if c == '\\' then
      match rest with
      | [] => .error .ended
      | letter :: after =>
        if letter == 'u' then
          match codePoint after with
          | .error e => .error e
          | .ok (ch, length) => (stringRest (after.drop length)).map fun r => (ch :: r.1, r.2)
        else
          match escaped? letter with
          | some ch => (stringRest after).map fun r => (ch :: r.1, r.2)
          | none => .error .malformed
    else if c.toNat < 0x20 then .error .malformed
    else (stringRest rest).map fun r => (c :: r.1, r.2)
termination_by cs.length
decreasing_by
  all_goals simp_all only [List.length_cons, List.length_drop]
  all_goals omega

/-- The string whose opening mark is the next character. -/
def quoted : Parse String := do
  match stringRest (← get).tail with
  | .ok (value, rest) =>
    set rest
    return String.ofList value
  | .error e => throw e

def word (rest : String) (value : JsonValue) (cs : List Char) : Except SettingsFault JsonValue :=
  if rest.toList.isPrefixOf cs then .ok value
  else if cs.isPrefixOf rest.toList then .error .ended
  else .error .malformed

def found (cs : List Char) : Except SettingsFault JsonValue :=
  match cs with
  | [] => .error .ended
  | c :: rest =>
    if c == 'n' then word "ull" .null rest
    else if c == 't' then word "rue" (.boolean true) rest
    else if c == 'f' then word "alse" (.boolean false) rest
    else if c == '-' then WrittenNumber.read true rest
    else if isDigit c then WrittenNumber.read false cs
    else if c == '\x22' then (stringRest rest).map fun r => .string (String.ofList r.1)
    else if c == '[' then .ok .sequence
    else if c == '\x7b' then .ok .map
    else .error .malformed

/-- The next value is not of the shape that has a place here. -/
def unfit {α : Type} (expected : JsonShape) : Parse α := do
  match found (← get) with
  | .ok value => throw (.unfit value expected)
  | .error e => throw e

/-- Whether another element follows; `first` says whether none came before. -/
def hasElement (first : Bool) : Parse Bool := do
  match ← peek with
  | none => throw .ended
  | some c =>
    if c == ']' then return false
    else if first then return true
    else if c == ',' then
      pass
      match ← peek with
      | none => throw .ended
      | some c => if c == ']' then throw .malformed else return true
    else throw .malformed

def endSequence : Parse Unit := do
  match ← peek with
  | none => throw .ended
  | some c => if c == ']' then pass else throw .malformed

/-- Whether another key follows; `first` says whether none came before. -/
def hasKey (first : Bool) : Parse Bool := do
  match ← peek with
  | none => throw .ended
  | some c =>
    if c == '\x7d' then return false
    else if first then
      if c == '\x22' then return true else throw .malformed
    else if c == ',' then
      pass
      match ← peek with
      | none => throw .ended
      | some c => if c == '\x22' then return true else throw .malformed
    else throw .malformed

def endMap : Parse Unit := do
  match ← peek with
  | none => throw .ended
  | some c => if c == '\x7d' then pass else throw .malformed

def colon : Parse Unit := do
  match ← peek with
  | none => throw .ended
  | some c => if c == ':' then pass else throw .malformed

/-! ## Settings -/

def string : Parse String := do
  match ← peek with
  | none => throw .ended
  | some c => if c == '\x22' then quoted else unfit .string

def strings : Parse (List String) := do
  match ← peek with
  | none => throw .ended
  | some c =>
    if c == '[' then
      pass
      let values ← Repeat.collect List.length (fun (first : Bool) => do
        if ← hasElement first then return some (← string, false) else return none) true
      endSequence
      return values
    else unfit .sequence

def moduleMap : Parse (List (String × String)) := do
  match ← peek with
  | none => throw .ended
  | some c =>
    if c == '\x7b' then
      pass
      let modules ← Repeat.collect List.length (fun (first : Bool) => do
        if ← hasKey first then
          let module ← quoted
          colon
          return some ((module, ← string), false)
        else return none) true
      endMap
      return modules.foldl (fun ms m => Settings.putModule m.1 m.2 ms) []
    else unfit .map

inductive Part where
  | baseUrl (value : String)
  | moduleMap (value : List (String × String))
  | exclude (value : List String)

def Part.apply (s : Settings) : Part → Settings
  | baseUrl value => { s with baseUrl := value }
  | moduleMap value => { s with moduleMap := value }
  | exclude value => { s with exclude := value }

def part : SettingsKey → Parse Part
  | .baseUrl => do return .baseUrl (← string)
  | .moduleMap => do return .moduleMap (← moduleMap)
  | .exclude => do return .exclude (← strings)

/-- One key with its value, given the keys that came before. -/
def keyed (seen : List SettingsKey) : Parse (Option (Part × List SettingsKey)) := do
  if ← hasKey seen.isEmpty then
    let name ← quoted
    match SettingsKey.ofText? name with
    | none => throw (.unknownKey name)
    | some key =>
      if seen.contains key then throw (.repeatedKey key)
      colon
      return some (← part key, key :: seen)
  else return none

/-- The parts in the order of the keys, without the keys. -/
def positional (keys : List SettingsKey) : Parse (List Part) := do
  match keys with
  | [] => return []
  | key :: rest =>
    if ← hasElement (keys.length == SettingsKey.all.length) then
      let first ← part key
      return first :: (← positional rest)
    else return []

def settings : Parse Settings := do
  match ← peek with
  | none => throw .ended
  | some c =>
    if c == '\x7b' then
      pass
      let parts ← Repeat.collect List.length keyed []
      endMap
      return parts.foldl Part.apply {}
    else if c == '[' then
      pass
      let parts ← positional SettingsKey.all
      endSequence
      return parts.foldl Part.apply {}
    else unfit .settings

def whole : Parse Settings := do
  let s ← settings
  match ← peek with
  | none => return s
  | some _ => throw .malformed

end SettingsReader

namespace Settings

def ofJson (text : String) : Except SettingsFault Settings :=
  match SettingsReader.whole text.toList with
  | .ok s _ => .ok s
  | .error e _ => .error e

end Settings

end ScriptOutline
