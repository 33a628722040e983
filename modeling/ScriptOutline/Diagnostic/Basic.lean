import ScriptOutline.Diagnostic.Message
import ScriptOutline.Text.Location

/-!
A message about a stretch of a file, and collections of them.
-/

namespace ScriptOutline

structure Diagnostic where
  message : Message
  text : String
  file : Option String := none
  location : Option Location := none
deriving DecidableEq, Repr

namespace Diagnostic

def ofMessage (message : Message) (arguments : List String) : Diagnostic :=
  { message, text := message.text arguments }

def located (location : Location) (message : Message) (arguments : List String) : Diagnostic :=
  { ofMessage message arguments with location := some location }

def inFile (d : Diagnostic) (file : String) : Diagnostic := { d with file := some file }

def isError (d : Diagnostic) : Bool := d.message.severity == .error

def position? (d : Diagnostic) : Option Position := d.location.map (·.position)

/-- One line for people.  The position stands with the file name if there is
one and behind the text if not. -/
def line (d : Diagnostic) : String :=
  let body := d.message.severity.text ++ " " ++ d.message.code ++ ": " ++ d.text
  match d.file, d.position? with
  | some file, some p => file ++ ":" ++ p.text ++ ": " ++ body
  | some file, none => file ++ ": " ++ body
  | none, some p => body ++ " at " ++ p.text
  | none, none => body

/-- The byte by which diagnostics of one file are ordered. -/
def start (d : Diagnostic) : Nat :=
  match d.location with
  | some l => l.span.start
  | none => 0

/-- Diagnostics without a file come first, then files by name, then bytes. -/
def precedes (a b : Diagnostic) : Bool :=
  match a.file, b.file with
  | none, some _ => true
  | some _, none => false
  | none, none => a.start ≤ b.start
  | some f, some g => f < g || (f == g && a.start ≤ b.start)

end Diagnostic

/-- Diagnostics in the order in which they arose. -/
structure DiagnosticLog where
  entries : List Diagnostic := []
deriving DecidableEq, Repr

namespace DiagnosticLog

def size (l : DiagnosticLog) : Nat := l.entries.length

def isEmpty (l : DiagnosticLog) : Bool := l.entries.isEmpty

def add (l : DiagnosticLog) (d : Diagnostic) : DiagnosticLog := { entries := l.entries ++ [d] }

def append (l m : DiagnosticLog) : DiagnosticLog := { entries := l.entries ++ m.entries }

def hasErrors (l : DiagnosticLog) : Bool := l.entries.any (·.isError)

def errorCount (l : DiagnosticLog) : Nat := l.entries.countP (·.isError)

def warningCount (l : DiagnosticLog) : Nat := l.size - l.errorCount

/-- Name the file of every diagnostic that has none. -/
def setFile (l : DiagnosticLog) (file : String) : DiagnosticLog :=
  { entries := l.entries.map fun d => if d.file.isNone then d.inFile file else d }

/-- Diagnostics that the order does not tell apart keep their order. -/
def sort (l : DiagnosticLog) : DiagnosticLog :=
  { entries := l.entries.mergeSort Diagnostic.precedes }

end DiagnosticLog

end ScriptOutline
