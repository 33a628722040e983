import ScriptOutline.Diagnostic.Basic
import ScriptOutline.Files.Tree

/-!
The scripts that paths name, directories included.
-/

namespace ScriptOutline

/-- A file that was found, under the path by which it was found. -/
structure SourceFile where
  path : String
  text : Option String
deriving DecidableEq, Repr

structure PathError where
  path : String
  cause : FileError
deriving DecidableEq, Repr

namespace PathError

def text (e : PathError) : String := "Could not read '" ++ e.path ++ "': " ++ e.cause.text

def toDiagnostic (e : PathError) : Diagnostic :=
  (Diagnostic.ofMessage .unreadableFile [e.path, e.cause.text]).inFile e.path

end PathError

structure FileEntry where
  path : String
  /-- How many names lie between the start and this. -/
  depth : Nat := 0
  tree : FileTree
deriving Repr

namespace FileEntry

/-- The last name of the path, or the path itself if it has none. -/
def name (e : FileEntry) : String := (Path.fileName? e.path).getD e.path

def deeper (e : FileEntry) : FileEntry := { e with depth := e.depth + 1 }

def script? (e : FileEntry) : Option SourceFile :=
  match e.tree with
  | .file text => if Path.isScript e.path then some { path := e.path, text } else none
  | .special _ | .directory _ => none

end FileEntry

/-- A way through what stands at a path and below it.  What is not `kept` is left out, and with it
all that is below. -/
abbrev Walk := (kept : FileEntry → Bool) → (path : String) → FileTree → List FileEntry

namespace Walk

/-- Put something in its place among things in the order of their names. -/
def placeByName {α : Type} (x : String × α) : List (String × α) → List (String × α)
  | [] => [x]
  | y :: ys => if x.1 ≤ y.1 then x :: y :: ys else y :: placeByName x ys

def sortByName {α : Type} (xs : List (String × α)) : List (String × α) := xs.foldr placeByName []

mutual
/-- Depth first, a directory before its entries and these in the order of their names. -/
def byName (kept : FileEntry → Bool) (path : String) : FileTree → List FileEntry
  | .directory entries =>
    if kept { path, tree := .directory entries } then
      { path, tree := .directory entries } ::
        (sortByName (each (fun e => kept e.deeper) path entries)).flatMap fun walked =>
          walked.2.map FileEntry.deeper
    else []
  | t => if kept { path, tree := t } then [{ path, tree := t }] else []

def each (kept : FileEntry → Bool) (path : String) :
    List (String × FileTree) → List (String × List FileEntry)
  | [] => []
  | (name, entry) :: rest =>
    (name, byName kept (Path.child path name) entry) :: each kept path rest
end

end Walk

namespace Discovery

def isExcluded (exclude : List String) (path : String) : Bool :=
  (Path.names path).any exclude.contains

/-- A walk keeps what it starts from, whatever its name. -/
def isKept (exclude : List String) (e : FileEntry) : Bool :=
  e.depth == 0 || !exclude.contains e.name

/-- The scripts at one path.  An excluded path need not exist, and what stands
at a path need not be a file, if only it is no directory. -/
def atPath (walk : Walk) (view : FileView) (exclude : List String) (path : String) :
    Except PathError (List SourceFile) :=
  if isExcluded exclude path then .ok []
  else
    match view path with
    | .ok (.directory entries) =>
      .ok ((walk (isKept exclude) path (.directory entries)).filterMap FileEntry.script?)
    | .ok (.file text) | .ok (.special text) =>
      .ok (if Path.isScript path then [{ path, text }] else [])
    | .error cause => .error { path, cause }

def findBy (walk : Walk) (view : FileView) (exclude : List String) (paths : List String) :
    Except PathError (List SourceFile) := do
  return (← paths.mapM (atPath walk view exclude)).flatten

def find (view : FileView) (exclude : List String) (paths : List String) :
    Except PathError (List SourceFile) :=
  findBy Walk.byName view exclude paths

end Discovery

end ScriptOutline
