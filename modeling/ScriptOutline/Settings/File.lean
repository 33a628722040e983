import ScriptOutline.Files.Discovery
import ScriptOutline.Settings.Reader

/-!
The file that settings come from.
-/

namespace ScriptOutline

inductive SettingsError where
  | unreadable (path : String) (cause : FileError)
  | invalid (path : String) (cause : SettingsFault)
deriving DecidableEq, Repr

namespace SettingsError

def path : SettingsError → String
  | unreadable path _ | invalid path _ => path

def text : SettingsError → String
  | unreadable path cause => "Could not read configuration file '" ++ path ++ "': " ++ cause.text
  | invalid path cause => "Invalid configuration in '" ++ path ++ "': " ++ cause.text

def toDiagnostic : SettingsError → Diagnostic
  | unreadable path cause => PathError.toDiagnostic { path, cause }
  | invalid path cause => (Diagnostic.ofMessage .invalidConfiguration [cause.text]).inFile path

end SettingsError

namespace Settings

def fileName : String := "docscan.json"

def ofFile (view : FileView) (path : String) : Except SettingsError Settings :=
  match view.text path with
  | .error cause => .error (.unreadable path cause)
  | .ok text =>
    match ofJson text with
    | .ok s => .ok s
    | .error cause => .error (.invalid path cause)

/-- The settings of a run.  A file that is named has to be there; the file in
the directory counts if it is there. -/
def load (view : FileView) (named : Option String) (directory : String) :
    Except SettingsError Settings :=
  match named with
  | some path => ofFile view path
  | none =>
    let path := Path.within directory fileName
    if view.isFile path then ofFile view path else .ok {}

end Settings

end ScriptOutline
