import ScriptOutline.Text.Character

/-!
The settings of a run.
-/

namespace ScriptOutline

/-- Where modules live, and which names to pass over when looking for
scripts. -/
structure Settings where
  /-- Stands before each directory of the module map. -/
  baseUrl : String := ""
  /-- Modules and their directories.  The first that fits counts. -/
  moduleMap : List (String × String) := []
  exclude : List String := []
deriving DecidableEq, Repr

namespace Settings

def hasModuleMap (s : Settings) : Bool := !s.moduleMap.isEmpty

/-- Set the directory of a module.  A module that is known keeps its place. -/
def putModule (module directory : String) : List (String × String) → List (String × String)
  | [] => [(module, directory)]
  | m :: ms =>
    if m.1 == module then (module, directory) :: ms else m :: putModule module directory ms

theorem lookup_putModule (module directory : String) (ms : List (String × String)) :
    (putModule module directory ms).lookup module = some directory := by
  induction ms with
  | nil => simp [putModule]
  | cons m ms ih =>
    obtain ⟨known, place⟩ := m
    unfold putModule
    split
    · simp
    · next h =>
      have h : (module == known) = false := by
        simp only [beq_iff_eq] at h
        simp [Ne.symm h]
      simp [List.lookup_cons, h, ih]

def jsonCharacter (c : Char) : List Char :=
  if c == '\x22' then ['\\', '\x22']
  else if c == '\\' then ['\\', '\\']
  else if c == '\x08' then ['\\', 'b']
  else if c == '\x0c' then ['\\', 'f']
  else if c == '\n' then ['\\', 'n']
  else if c == '\r' then ['\\', 'r']
  else if c == '\t' then ['\\', 't']
  else if c.toNat < 0x20 then
    ['\\', 'u', '0', '0'] ++ Text.hexDigits (c.toNat / 16) ++ Text.hexDigits (c.toNat % 16)
  else [c]

def jsonString (s : String) : String :=
  String.ofList ('\x22' :: (s.toList.flatMap jsonCharacter ++ ['\x22']))

def jsonBraces (parts : List String) : String := "\x7b" ++ ",".intercalate parts ++ "\x7d"

/-- The settings as JSON without white space. -/
def json (s : Settings) : String :=
  jsonBraces
    [jsonString "baseUrl" ++ ":" ++ jsonString s.baseUrl,
     jsonString "moduleMap" ++ ":" ++
       jsonBraces (s.moduleMap.map fun m => jsonString m.1 ++ ":" ++ jsonString m.2),
     jsonString "exclude" ++ ":[" ++ ",".intercalate (s.exclude.map jsonString) ++ "]"]

end Settings

end ScriptOutline
