import ScriptOutline.CommandLine

/-!
The program: what is at the paths is read from disk first, and the rest is
done on what was read.
-/

namespace ScriptOutline
namespace Main

def fileError : IO.Error → FileError
  | .inappropriateType .. => .notDirectory
  | _ => .notFound

def readText (path : String) : IO (Option String) := do
  return String.fromUTF8? (← IO.FS.readBinFile path)

/-- Everything at and below a path.  What is no file is not opened. -/
partial def readTree (path : String) : IO FileTree := do
  let place := (← IO.currentDir) / path
  match (← place.metadata).type with
  | .dir =>
    let mut entries := []
    for entry in ← place.readDir do
      let tree ← readTree (Path.child path entry.fileName)
      entries := FileTree.putEntry entry.fileName tree entries
    return .directory entries
  | .file => return .file (← readText path)
  | _ => return .special none

/-- What is at a path, or why nothing can be seen there. -/
def lookAt (path : String) : IO (Except FileError FileTree) := do
  try
    match ← readTree path with
    | .special _ => return .ok (.special (← readText path))
    | tree => return .ok tree
  catch e => return .error (fileError e)

def pathsOf (arguments : List String) : List String :=
  match CommandOptions.ofArguments arguments with
  | .ok o => o.config.toList ++ Settings.fileName :: o.paths
  | .error _ => []

end Main
end ScriptOutline

open ScriptOutline in
def main (arguments : List String) : IO UInt32 := do
  let seen ← (Main.pathsOf arguments).mapM fun path => do return (path, ← Main.lookAt path)
  let view : FileView := fun path => (seen.lookup path).getD (.error .notFound)
  let result := CommandLine.run view arguments
  IO.print result.output
  for (diagnostic, _) in result.diagnostics do
    IO.eprintln diagnostic.line
  return result.exitCode.toUInt32
