import ScriptOutline.Files.Discovery
import ScriptOutline.Project.ModuleId
import ScriptOutline.Scope.Binding
import ScriptOutline.Script.Listing
import ScriptOutline.Script.Printer
import ScriptOutline.Script.Walk

/-!
Several scripts in one run.  Each is read by itself, so that a fault in one
leaves the others as they are.
-/

namespace ScriptOutline

inductive Emit where
  | listing
  | script
  | symbols
  | nothing
deriving DecidableEq, Repr

namespace Emit

def all : List Emit := [listing, script, symbols, nothing]

def text : Emit → String
  | listing => "ast"
  | script => "js"
  | symbols => "symbols"
  | nothing => "none"

def ofText? (s : String) : Option Emit := all.find? (·.text == s)

def render (e : Emit) (s : Script) : Option String :=
  match e with
  | listing => some (Node.listAll s.body)
  | script => some (s.print {})
  | symbols => some (Node.scopes {} s.body).outline
  | nothing => none

end Emit

structure SourceUnit where
  file : String
  text : String
deriving DecidableEq, Repr

structure UnitSummary where
  /-- The nodes of the script, inner ones included. -/
  nodes : Nat
  warnings : List Diagnostic
  output : Option String

structure UnitReport where
  file : String
  moduleId : Option ModuleId
  outcome : Except Diagnostic UnitSummary

namespace SourceUnit

def summarize (emit : Emit) (file : String) (s : Script) : UnitSummary :=
  { nodes := Node.countAll s.body
    warnings := (s.diagnostics.setFile file).entries
    output := emit.render s }

def report [IdentifierTable] (settings : Settings) (emit : Emit) (u : SourceUnit) : UnitReport :=
  { file := u.file
    moduleId := ModuleId.ofPath? settings u.file
    outcome :=
      match Script.ofText u.text with
      | .ok s => .ok (summarize emit u.file s)
      | .error e => .error (e.toDiagnostic.inFile u.file) }

end SourceUnit

structure ProjectStats where
  units : Nat := 0
  parsed : Nat := 0
  failed : Nat := 0
  nodes : Nat := 0
  warnings : Nat := 0
deriving DecidableEq, Repr

namespace ProjectStats

def add (s : ProjectStats) (r : UnitReport) : ProjectStats :=
  match r.outcome with
  | .ok summary =>
    { s with
      units := s.units + 1
      parsed := s.parsed + 1
      nodes := s.nodes + summary.nodes
      warnings := s.warnings + summary.warnings.length }
  | .error _ => { s with units := s.units + 1, failed := s.failed + 1 }

def ofReports (rs : List UnitReport) : ProjectStats := rs.foldl add {}

end ProjectStats

structure Project where
  settings : Settings := {}
  emit : Emit := .listing
  units : List SourceUnit := []
deriving Repr

namespace Project

def addUnit (p : Project) (u : SourceUnit) : Project := { p with units := p.units ++ [u] }

/-- Units of the files that can be read, and the others. -/
structure Loaded where
  units : List SourceUnit := []
  unreadable : List PathError := []

def Loaded.add (l : Loaded) (path : String) (text : Except FileError String) : Loaded :=
  match text with
  | .ok text => { l with units := l.units ++ [{ file := path, text }] }
  | .error cause => { l with unreadable := l.unreadable ++ [{ path, cause }] }

def loadPaths (view : FileView) (paths : List String) : Loaded :=
  paths.foldl (fun l path => l.add path (view.text path)) {}

def loadFiles (files : List SourceFile) : Loaded :=
  files.foldl (fun l f => l.add f.path (FileTree.file f.text).text) {}

def reports [IdentifierTable] (p : Project) : List UnitReport :=
  p.units.map (·.report p.settings p.emit)

end Project

end ScriptOutline
