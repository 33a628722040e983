import ScriptOutline.Scope.Basic
import ScriptOutline.Script.Hoist

/-!
Binding the names of a script: which scope declares a name, and which symbol
an assignment goes to.
-/

namespace ScriptOutline

namespace ScopeTree

/-- Declare a name in a scope.  A second declaration only counts. -/
def declare (t : ScopeTree) (scope : Nat) (kind : SymbolKind) (name : Token) : ScopeTree :=
  let t := t.mention name.value
  match (t.locals scope).lookup name.value with
  | some id => t.updateSymbol id fun s => { s with declarations := s.declarations + 1 }
  | none =>
    t.addSymbol
      { id := t.symbols.length, name := name.value, kind, scope,
        position := name.location.position, declarations := 1 }

def declareAll (t : ScopeTree) (scope : Nat) (kind : SymbolKind) (names : List Token) : ScopeTree :=
  names.foldl (fun t name => t.declare scope kind name) t

/-- Record an assignment to a name seen from a scope.  A name that no scope
declares becomes a global of the script. -/
def assign (t : ScopeTree) (scope : Nat) (target : SymbolPath) (operator valueKind : String) :
    ScopeTree :=
  match target.single? with
  | none => t
  | some name =>
    let t := t.mention name
    let record : AssignmentRecord :=
      { position := target.root.location.position, operator, valueKind }
    match t.lookup scope name with
    | some id => t.updateSymbol id fun s => { s with assignments := s.assignments ++ [record] }
    | none =>
      t.addSymbol
        { id := t.symbols.length, name, kind := .global, scope := 0, position := record.position,
          assignments := [record] }

end ScopeTree

namespace Node

/-- The names that statements declare with `let`, those in inner blocks left
out. -/
def letNames : List Node → List Token
  | [] => []
  | declaration _ .letWord name :: ns => name :: letNames ns
  | _ :: ns => letNames ns

def declareBlock (scope : Nat) (body : List Node) (t : ScopeTree) : ScopeTree :=
  t.declareAll scope .letName (letNames body)

def declareBody (scope : Nat) (body : List Node) (t : ScopeTree) : ScopeTree :=
  declareBlock scope body (t.declareAll scope .varName ((declaredAll body).map (·.name)))

def enterFunction (scope : Nat) (head : FunctionHead) (body : List Node) (t : ScopeTree) :
    ScopeTree :=
  declareBody t.scopes.length body
    ((t.openScope (.function head.name.text) scope).declareAll t.scopes.length .parameter
      head.parameters)

mutual
/-- Bind a node in a scope.  The arguments of a function that is called where
it stands are bound before the function. -/
def bind (scope : Nat) : Node → ScopeTree → ScopeTree
  | block _ body, t =>
    bindAll t.scopes.length body (declareBlock t.scopes.length body (t.openScope .block scope))
  | assignment _ target operator value, t =>
    bind scope value (t.assign scope target operator value.kindName)
  | function _ head body, t => bindAll t.scopes.length body (enterFunction scope head body t)
  | immediate _ head body arguments, t =>
    let t := bindAll scope arguments t
    bindAll t.scopes.length body (enterFunction scope head body t)
  | returnValue _ value, t | instantiation _ value, t => bind scope value t
  | call _ _ arguments, t => bindAll scope arguments t
  | invocation _ _ arguments chain _, t => bindAll scope chain (bindAll scope arguments t)
  | array _ elements, t => bindAll scope elements t
  | declaration .., t | returnNothing _, t | reference .., t | object .., t | primitive .., t
  | expression .., t | skipped .., t => t

def bindAll (scope : Nat) : List Node → ScopeTree → ScopeTree
  | [], t => t
  | n :: ns, t => bindAll scope ns (bind scope n t)
end

/-- The scopes of a script.  Its names join those already known. -/
def scopes (names : Names) (body : List Node) : ScopeTree :=
  bindAll 0 body (declareBody 0 body (.start names))

end Node

end ScriptOutline
