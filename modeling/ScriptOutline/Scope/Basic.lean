import ScriptOutline.Names
import ScriptOutline.Text.Location

/-!
The scopes of a script and the names that live in them.
-/

namespace ScriptOutline

inductive SymbolKind where
  | varName
  | letName
  | parameter
  /-- Assigned without being declared anywhere in view. -/
  | global
deriving DecidableEq, Repr

def SymbolKind.text : SymbolKind → String
  | varName => "var"
  | letName => "let"
  | parameter => "param"
  | global => "global"

/-- An assignment to a name: where, with which operator, and the kind of node
that it assigns. -/
structure AssignmentRecord where
  position : Position
  operator : String
  valueKind : String
deriving DecidableEq, Repr

def AssignmentRecord.text (a : AssignmentRecord) : String :=
  a.operator ++ a.valueKind ++ " @" ++ a.position.text

structure ScriptSymbol where
  /-- Its place among the symbols of the script. -/
  id : Nat
  name : String
  kind : SymbolKind
  /-- The number of the scope it lives in. -/
  scope : Nat
  /-- Where it was first declared or, if it never was, first assigned. -/
  position : Position
  declarations : Nat := 0
  assignments : List AssignmentRecord := []
deriving DecidableEq, Repr

inductive ScopeKind where
  | program
  | function (name : String)
  | block
deriving DecidableEq, Repr

structure Scope where
  /-- Its place among the scopes of the script. -/
  id : Nat
  kind : ScopeKind
  parent : Option Nat := none
  children : List Nat := []
  /-- Names in the order of their declaration, each with the number of its
  symbol. -/
  locals : List (String × Nat) := []
deriving DecidableEq, Repr

/-- All scopes and symbols of a script, each numbered by its place, and the
names met so far, which several scripts may share. -/
structure ScopeTree where
  scopes : List Scope
  symbols : List ScriptSymbol := []
  names : Names := {}
deriving DecidableEq, Repr

namespace ScopeTree

/-- The tree of an empty script: scope 0 is the script itself. -/
def start (names : Names) : ScopeTree := { scopes := [{ id := 0, kind := .program }], names }

def locals (t : ScopeTree) (scope : Nat) : List (String × Nat) :=
  (t.scopes[scope]?.map (·.locals)).getD []

/-- Open a scope inside `parent`.  Its number is the number of scopes before. -/
def openScope (t : ScopeTree) (kind : ScopeKind) (parent : Nat) : ScopeTree :=
  { t with
    scopes :=
      t.scopes.modify parent (fun s => { s with children := s.children ++ [t.scopes.length] }) ++
        [{ id := t.scopes.length, kind, parent := some parent }] }

def addSymbol (t : ScopeTree) (symbol : ScriptSymbol) : ScopeTree :=
  { t with
    symbols := t.symbols ++ [symbol]
    scopes := t.scopes.modify symbol.scope fun s =>
      { s with locals := s.locals ++ [(symbol.name, t.symbols.length)] } }

def updateSymbol (t : ScopeTree) (id : Nat) (f : ScriptSymbol → ScriptSymbol) : ScopeTree :=
  { t with symbols := t.symbols.modify id f }

def mention (t : ScopeTree) (name : String) : ScopeTree := { t with names := t.names.mention name }

/-- The symbol that a name stands for in a scope: its own, or that of the scope
around it.  A scope has a greater number than the one around it, which is
tested here so that the search ends in any tree. -/
def lookup (t : ScopeTree) (scope : Nat) (name : String) : Option Nat :=
  match (t.locals scope).lookup name with
  | some id => some id
  | none =>
    match t.scopes[scope]?.bind (·.parent) with
    | some parent => if parent < scope then t.lookup parent name else none
    | none => none
termination_by scope

def symbolLine (s : ScriptSymbol) : String :=
  s.kind.text ++ " " ++ s.name ++
    (if s.declarations > 1 then " (declared " ++ toString s.declarations ++ " times)" else "") ++
    String.join (s.assignments.map fun a => " " ++ a.text)

def scopeLine : ScopeKind → String
  | .program => "program"
  | .function name => "function " ++ name
  | .block => "block"

def symbolsIn (t : ScopeTree) (scope : Nat) : List ScriptSymbol :=
  (t.locals scope).filterMap fun l => t.symbols[l.2]?

/-- The lines of a scope and the scopes in it, each with its depth.  `fuel`
bounds the depth; the number of scopes always suffices. -/
def outlineLines (t : ScopeTree) : Nat → Nat → Nat → List (Nat × String)
  | 0, _, _ => []
  | fuel + 1, depth, scope =>
    match t.scopes[scope]? with
    | none => []
    | some s =>
      (depth, scopeLine s.kind) ::
        ((t.symbolsIn scope).map fun x => (depth + 1, symbolLine x)) ++
        s.children.flatMap (t.outlineLines fuel (depth + 1))

/-- Scopes and symbols, indented by two spaces a level. -/
def outline (t : ScopeTree) : String :=
  String.join ((t.outlineLines t.scopes.length 0 0).map fun l =>
    String.join (List.replicate l.1 "  ") ++ l.2 ++ "\n")

def handles (t : ScopeTree) : List (Option Nat) := t.symbols.map fun s => t.names.handle? s.name

end ScopeTree

end ScriptOutline
