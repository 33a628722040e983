import ScriptOutline.Files.Path

/-!
Files and directories as far as a program can see them.
-/

namespace ScriptOutline

inductive FileError where
  | notFound
  | notDirectory
  | isDirectory
  | nameTooLong
  /-- The path holds a character that no path can hold. -/
  | zeroCharacter
  | notText
deriving DecidableEq, Repr

def FileError.text : FileError → String
  | notFound => "No such file or directory (os error 2)"
  | notDirectory => "Not a directory (os error 20)"
  | isDirectory => "Is a directory (os error 21)"
  | nameTooLong => "File name too long (os error 36)"
  | zeroCharacter => "file name contained an unexpected NUL byte"
  | notText => "stream did not contain valid UTF-8"

/-- What stands at a path.  A file without text holds bytes that are no UTF-8.
No two entries of a directory have the same name. -/
inductive FileTree where
  | file (text : Option String)
  /-- Neither a file nor a directory, as a pipe or a device, and what is read from it. -/
  | special (text : Option String)
  | directory (entries : List (String × FileTree))
deriving Repr

/-- How paths are looked up. -/
abbrev FileView := String → Except FileError FileTree

namespace FileTree

def empty : FileTree := directory []

/-- The most bytes in the name of an entry. -/
def maxName : Nat := 255

/-- The most bytes in a path. -/
def maxPath : Nat := 4095

/-- Follow segments from `current`, which lies below the directories `above`.
Only a directory can be passed through, also by a segment that stays in it. -/
def follow (above : List FileTree) (current : FileTree) : List String → Except FileError FileTree
  | [] => .ok current
  | segment :: rest =>
    match current with
    | file _ | special _ => .error .notDirectory
    | directory entries =>
      if segment == "" || segment == "." then follow above current rest
      else if segment == ".." then
        match above with
        | [] => follow [] current rest
        | parent :: above => follow above parent rest
      else if maxName < segment.utf8ByteSize then .error .nameTooLong
      else
        match entries.lookup segment with
        | none => .error .notFound
        | some entry => follow (current :: above) entry rest

end FileTree

/-- The tree of a machine, and the names that lead from its root to the
directory in which relative paths begin. -/
structure FileSystem where
  root : FileTree
  directory : List String := []

/-- What stands at a path.  The directory above the root is the root. -/
def FileSystem.look (s : FileSystem) : FileView := fun path =>
  if path.toList.contains '\x00' then .error .zeroCharacter
  else if FileTree.maxPath < path.utf8ByteSize then .error .nameTooLong
  else if path.isEmpty then .error .notFound
  else
    let start := if path.startsWith "/" then [] else s.directory
    FileTree.follow [] s.root (start ++ Path.segments path)

namespace FileTree

/-- The tree as the directory in which relative paths begin, on a machine that
holds nothing else. -/
def system (t : FileTree) : FileSystem :=
  { root := directory [("scratch", t)], directory := ["scratch"] }

def look (t : FileTree) : FileView := t.system.look

def isFile : FileTree → Bool
  | file _ => true
  | special _ | directory _ => false

def isDirectory : FileTree → Bool
  | file _ | special _ => false
  | directory _ => true

def entries : FileTree → List (String × FileTree)
  | file _ | special _ => []
  | directory entries => entries

def text : FileTree → Except FileError String
  | file (some text) | special (some text) => .ok text
  | file none | special none => .error .notText
  | directory _ => .error .isDirectory

/-- Put an entry in its place among entries in order, or in the place of the
entry of that name. -/
def putEntry (name : String) (entry : FileTree) :
    List (String × FileTree) → List (String × FileTree)
  | [] => [(name, entry)]
  | e :: es =>
    if name < e.1 then (name, entry) :: e :: es
    else if name == e.1 then (name, entry) :: es
    else e :: putEntry name entry es

/-- Put something at the end of some segments, with the directories on the
way.  What stands in the way is lost. -/
def put (item : FileTree) : List String → FileTree → FileTree
  | [], _ => item
  | segment :: rest, t =>
    let entry := put item rest ((t.entries.lookup segment).getD empty)
    directory (putEntry segment entry t.entries)

def addFile (t : FileTree) (path : String) (text : Option String) : FileTree :=
  put (file text) (Path.names path) t

/-- Add a directory at a path, unless there is one. -/
def addDirectory (t : FileTree) (path : String) : FileTree :=
  match t.look path with
  | .ok (directory _) => t
  | _ => put empty (Path.names path) t

end FileTree

def FileView.text (view : FileView) (path : String) : Except FileError String := do
  (← view path).text

def FileView.isFile (view : FileView) (path : String) : Bool :=
  match view path with
  | .ok t => t.isFile
  | .error _ => false

end ScriptOutline
