import ScriptOutline.Project.Basic
import ScriptOutline.Settings.File

/-!
The command line: options and paths in, the text of each script out.
-/

namespace ScriptOutline

/-! ## Arguments -/

structure CommandOptions where
  paths : List String := []
  config : Option String := none
  emit : Option Emit := none
  verbosity : Nat := 0
  logJson : Bool := false
deriving DecidableEq, Repr

/-- Why arguments do not make a run. -/
inductive Refusal where
  /-- The arguments ask for the version. -/
  | version
  /-- The arguments ask for help. -/
  | help
  /-- The arguments make no sense. -/
  | misuse
deriving DecidableEq, Repr

namespace CommandOptions

inductive Valued where
  | config
  | emit
deriving DecidableEq, Repr

/-- A configuration is named once, and its name is not empty. -/
def setConfig (o : CommandOptions) (value : String) : Except Refusal CommandOptions :=
  if value.isEmpty || o.config.isSome then .error .misuse
  else .ok { o with config := some value }

def setEmit (o : CommandOptions) (value : String) : Except Refusal CommandOptions :=
  match o.emit, Emit.ofText? value with
  | none, some emit => .ok { o with emit := some emit }
  | _, _ => .error .misuse

def setValue (o : CommandOptions) : Valued → String → Except Refusal CommandOptions
  | .config => o.setConfig
  | .emit => o.setEmit

def setLogJson (o : CommandOptions) : Except Refusal CommandOptions :=
  if o.logJson then .error .misuse else .ok { o with logJson := true }

/-- No path is empty. -/
def addPath (o : CommandOptions) (path : String) : Except Refusal CommandOptions :=
  if path.isEmpty then .error .misuse else .ok { o with paths := o.paths ++ [path] }

/-- What one argument leads to: options, or options that wait for a value. -/
inductive Progress where
  | done (options : CommandOptions)
  | waiting (options : CommandOptions) (option : Valued)

/-- An option by its name, with the value that an equals sign joins to it. -/
def long (o : CommandOptions) (name : String) (value : Option String) : Except Refusal Progress :=
  let valued (option : Valued) : Except Refusal Progress :=
    match value with
    | some v => do return .done (← o.setValue option v)
    | none => .ok (.waiting o option)
  if name == "config" then valued .config
  else if name == "emit" then valued .emit
  else if value.isSome then .error .misuse
  else if name == "verbose" then .ok (.done { o with verbosity := o.verbosity + 1 })
  else if name == "log-json" then do return .done (← o.setLogJson)
  else if name == "version" then .error .version
  else if name == "help" then .error .help
  else .error .misuse

/-- Options by their letters.  The value of the last one may follow at once,
with or without an equals sign. -/
def short (o : CommandOptions) : List Char → Except Refusal Progress
  | [] => .ok (.done o)
  | c :: cs =>
    if c == 'v' then short { o with verbosity := o.verbosity + 1 } cs
    else if c == 'c' then
      match cs with
      | [] => .ok (.waiting o .config)
      | _ :: _ =>
        let value := (Path.afterHead? ['='] cs).getD cs
        do return .done (← o.setConfig (String.ofList value))
    else if c == 'V' then .error .version
    else if c == 'h' then .error .help
    else .error .misuse

def splitValue (cs : List Char) : String × Option String :=
  let name := cs.takeWhile (· != '=')
  (String.ofList name,
   if name.length < cs.length then some (String.ofList (cs.drop (name.length + 1))) else none)

/-- One argument.  A single hyphen is a path. -/
def argument (o : CommandOptions) (text : String) : Except Refusal Progress :=
  match text.toList with
  | '-' :: '-' :: cs => o.long (splitValue cs).1 (splitValue cs).2
  | '-' :: c :: cs => o.short (c :: cs)
  | _ => do return .done (← o.addPath text)

/-- Whether an argument is an option and so no value of the option before. -/
def isOption (text : String) : Bool :=
  match text.toList with
  | '-' :: _ :: _ => true
  | _ => false

/-- The arguments in order.  All behind two hyphens are paths. -/
def readArguments (o : CommandOptions) : List String → Except Refusal CommandOptions
  | [] => .ok o
  | "--" :: rest => rest.foldlM addPath o
  | a :: rest =>
    match o.argument a with
    | .error e => .error e
    | .ok (.done o) => readArguments o rest
    | .ok (.waiting o option) =>
      match rest with
      | [] => .error .misuse
      | value :: rest =>
        if isOption value then .error .misuse
        else
          match o.setValue option value with
          | .error e => .error e
          | .ok o => readArguments o rest

def ofArguments (arguments : List String) : Except Refusal CommandOptions := do
  let o ← readArguments {} arguments
  if o.paths.isEmpty then .error .misuse else return o

end CommandOptions

/-! ## Runs -/

structure RunResult where
  exitCode : Nat
  output : String := ""
  /-- Diagnostics for the log, each with the source it is about. -/
  diagnostics : List (Diagnostic × Option String) := []

namespace CommandLine

def versionText : String := "docscan 0.1.0\n"

def helpText : String :=
  "Scan JavaScript sources for documentation structure\n\nUsage: docscan [OPTIONS] <PATH>...\n"

/-- The output of a unit under the name of its file. -/
def unitText (file output : String) : String :=
  "// " ++ file ++ "\n" ++ output ++ (if output.toList.getLast? == some '\n' then "" else "\n")

def reportText (r : UnitReport) : String :=
  match r.outcome with
  | .ok { output := some output, .. } => unitText r.file output
  | _ => ""

def reportDiagnostics (text : String) (r : UnitReport) : List (Diagnostic × Option String) :=
  match r.outcome with
  | .ok summary => summary.warnings.map (·, some text)
  | .error d => [(d, some text)]

def scan [IdentifierTable] (settings : Settings) (emit : Emit) (files : List SourceFile) :
    RunResult :=
  let loaded := Project.loadFiles files
  let project : Project := { settings, emit, units := loaded.units }
  let reports := project.reports
  let stats := ProjectStats.ofReports reports
  { exitCode := if stats.failed > 0 || !loaded.unreadable.isEmpty then 1 else 0
    output := String.join (reports.map reportText)
    diagnostics :=
      loaded.unreadable.map (fun e => (e.toDiagnostic, none)) ++
        ((loaded.units.zip reports).flatMap fun r => reportDiagnostics r.1.text r.2) }

/-- A run that does not come to scanning. -/
def refused (d : Diagnostic) : RunResult := { exitCode := 2, diagnostics := [(d, none)] }

def runOptions [IdentifierTable] (view : FileView) (o : CommandOptions) : RunResult :=
  match Settings.load view o.config "" with
  | .error e => refused e.toDiagnostic
  | .ok settings =>
    match Discovery.find view settings.exclude o.paths with
    | .error e => refused e.toDiagnostic
    | .ok [] => { exitCode := 2 }
    | .ok files => scan settings (o.emit.getD .listing) files

/-- Run with arguments.  The exit code is 0 if every script was read, 1 if one
was not, and 2 if there was nothing to do. -/
def run [IdentifierTable] (view : FileView) (arguments : List String) : RunResult :=
  match CommandOptions.ofArguments arguments with
  | .ok o => runOptions view o
  | .error .version => { exitCode := 0, output := versionText }
  | .error .help => { exitCode := 0, output := helpText }
  | .error .misuse => { exitCode := 2 }

end CommandLine

end ScriptOutline
