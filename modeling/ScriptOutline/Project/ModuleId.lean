import ScriptOutline.Files.Path
import ScriptOutline.Settings.Basic

/-!
Modules are named after the place of their files.
-/

namespace ScriptOutline

/-- The name of a module, such as `lib/date/locale`. -/
structure ModuleId where
  text : String
deriving DecidableEq, Repr

namespace ModuleId

def package (m : ModuleId) : String := ((Path.segments m.text).head?).getD ""

def dotted (m : ModuleId) : String :=
  String.ofList (m.text.toList.map fun c => if c == '/' then '.' else c)

/-- The module of a file, given what follows the directory of its package.
The file `main` of that directory is the package itself. -/
def ofRest (package : String) (rest : List Char) : ModuleId :=
  let rest := (Path.afterHead? ['/'] rest).getD rest
  let rest := (Path.beforeEnding? ['.', 'j', 's'] rest).getD rest
  if rest == ['m', 'a', 'i', 'n'] then { text := package }
  else { text := package ++ "/" ++ String.ofList rest }

/-- The module of a file whose path is `path`, if it lies in the directory. -/
def inDirectory? (path package directory : String) : Option ModuleId :=
  (Path.afterHead? (Path.asDirectory directory).toList path.toList).map (ofRest package)

/-- The module of a file by the first directory of the module map that it lies
in. -/
def ofPath? (s : Settings) (path : String) : Option ModuleId :=
  s.moduleMap.findSome? fun m => inDirectory? (Path.canonical path) m.1 (s.baseUrl ++ m.2)

end ModuleId

end ScriptOutline
