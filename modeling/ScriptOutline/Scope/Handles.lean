import ScriptOutline.Scope.Binding

/-!
Scopes whose tables are keyed by the handles of names.

Several scripts may share one table of names, so a handle depends on what others have made
known before.  The operations here are those on a `ScopeTree` with handles in place of names.
-/

namespace ScriptOutline

/-- A table that gives names handles, the same name the same handle and another name another
one.  What is known stays known. -/
class NameTable (σ : Type) where
  /-- The handle of a name that is known. -/
  handle? : σ → String → Option Nat
  /-- The handle of a name, which is made known if need be. -/
  intern : σ → String → Nat × σ
  handle?_intern : ∀ names name, handle? (intern names name).2 name = some (intern names name).1
  handle?_kept : ∀ {names name handle}, handle? names name = some handle →
    ∀ other, handle? (intern names other).2 name = some handle
  handle?_inj : ∀ {names name other handle}, handle? names name = some handle →
    handle? names other = some handle → name = other

structure HandleScope where
  id : Nat
  kind : ScopeKind
  parent : Option Nat := none
  children : List Nat := []
  /-- Handles in the order in which their names were declared, each with the number of its
  symbol. -/
  locals : List (Nat × Nat) := []
deriving DecidableEq, Repr

/-- A symbol with the handle of its name.  The name itself is kept for display. -/
structure HandleSymbol extends ScriptSymbol where
  handle : Nat
deriving DecidableEq, Repr

structure HandleTree (σ : Type) where
  scopes : List HandleScope
  symbols : List HandleSymbol := []
  names : σ
deriving DecidableEq, Repr

namespace HandleTree

variable {σ : Type}

def start (names : σ) : HandleTree σ := { scopes := [{ id := 0, kind := .program }], names }

def locals (t : HandleTree σ) (scope : Nat) : List (Nat × Nat) :=
  (t.scopes[scope]?.map (·.locals)).getD []

def openScope (t : HandleTree σ) (kind : ScopeKind) (parent : Nat) : HandleTree σ :=
  { t with
    scopes :=
      t.scopes.modify parent (fun s => { s with children := s.children ++ [t.scopes.length] }) ++
        [{ id := t.scopes.length, kind, parent := some parent }] }

def updateSymbol (t : HandleTree σ) (id : Nat) (f : ScriptSymbol → ScriptSymbol) : HandleTree σ :=
  { t with
    symbols := t.symbols.modify id fun x =>
      { toScriptSymbol := f x.toScriptSymbol, handle := x.handle } }

/-- The symbol that a handle stands for in a scope, as `ScopeTree.lookup` finds it by name. -/
def find (t : HandleTree σ) (scope handle : Nat) : Option Nat :=
  match (t.locals scope).lookup handle with
  | some id => some id
  | none =>
    match t.scopes[scope]?.bind (·.parent) with
    | some parent => if parent < scope then t.find parent handle else none
    | none => none
termination_by scope

variable [NameTable σ]

def mention (t : HandleTree σ) (name : String) : HandleTree σ :=
  { t with names := (NameTable.intern t.names name).2 }

/-- A name that is not known stands for nothing, and is not made known. -/
def lookup (t : HandleTree σ) (scope : Nat) (name : String) : Option Nat :=
  (NameTable.handle? t.names name).bind (t.find scope)

/-- The name of a new symbol is made known once more. -/
def addSymbol (t : HandleTree σ) (symbol : ScriptSymbol) : HandleTree σ :=
  let handle := (NameTable.intern t.names symbol.name).1
  { t.mention symbol.name with
    symbols := t.symbols ++ [{ toScriptSymbol := symbol, handle }]
    scopes := t.scopes.modify symbol.scope fun s =>
      { s with locals := s.locals ++ [(handle, t.symbols.length)] } }

def declare (t : HandleTree σ) (scope : Nat) (kind : SymbolKind) (name : Token) : HandleTree σ :=
  let handle := (NameTable.intern t.names name.value).1
  let t := t.mention name.value
  match (t.locals scope).lookup handle with
  | some id => t.updateSymbol id fun s => { s with declarations := s.declarations + 1 }
  | none =>
    t.addSymbol
      { id := t.symbols.length, name := name.value, kind, scope,
        position := name.location.position, declarations := 1 }

def declareAll (t : HandleTree σ) (scope : Nat) (kind : SymbolKind) (names : List Token) :
    HandleTree σ :=
  names.foldl (fun t name => t.declare scope kind name) t

def assign (t : HandleTree σ) (scope : Nat) (target : SymbolPath) (operator valueKind : String) :
    HandleTree σ :=
  match target.single? with
  | none => t
  | some name =>
    let handle := (NameTable.intern t.names name).1
    let t := t.mention name
    let record : AssignmentRecord :=
      { position := target.root.location.position, operator, valueKind }
    match t.find scope handle with
    | some id => t.updateSymbol id fun s => { s with assignments := s.assignments ++ [record] }
    | none =>
      t.addSymbol
        { id := t.symbols.length, name, kind := .global, scope := 0, position := record.position,
          assignments := [record] }

def declareBlock (t : HandleTree σ) (scope : Nat) (body : List Node) : HandleTree σ :=
  t.declareAll scope .letName (Node.letNames body)

def declareBody (t : HandleTree σ) (scope : Nat) (body : List Node) : HandleTree σ :=
  (t.declareAll scope .varName ((Node.declaredAll body).map (·.name))).declareBlock scope body

def enterFunction (t : HandleTree σ) (scope : Nat) (head : FunctionHead) (body : List Node) :
    HandleTree σ :=
  ((t.openScope (.function head.name.text) scope).declareAll t.scopes.length .parameter
    head.parameters).declareBody t.scopes.length body

mutual
def bind (t : HandleTree σ) (scope : Nat) : Node → HandleTree σ
  | .block _ body =>
    ((t.openScope .block scope).declareBlock t.scopes.length body).bindAll t.scopes.length body
  | .assignment _ target operator value =>
    (t.assign scope target operator value.kindName).bind scope value
  | .function _ head body => (t.enterFunction scope head body).bindAll t.scopes.length body
  | .immediate _ head body arguments =>
    let t := t.bindAll scope arguments
    (t.enterFunction scope head body).bindAll t.scopes.length body
  | .returnValue _ value | .instantiation _ value => t.bind scope value
  | .call _ _ arguments => t.bindAll scope arguments
  | .invocation _ _ arguments chain _ => (t.bindAll scope arguments).bindAll scope chain
  | .array _ elements => t.bindAll scope elements
  | .declaration .. | .returnNothing _ | .reference .. | .object .. | .primitive ..
  | .expression .. | .skipped .. => t

def bindAll (t : HandleTree σ) (scope : Nat) : List Node → HandleTree σ
  | [] => t
  | n :: ns => (t.bind scope n).bindAll scope ns
end

/-- The scopes of a script, which shares a table of names with others. -/
def ofBody (names : σ) (body : List Node) : HandleTree σ :=
  ((start names).declareBody 0 body).bindAll 0 body

end HandleTree

namespace HandleTree

variable {σ : Type}

def symbolsIn (t : HandleTree σ) (scope : Nat) : List HandleSymbol :=
  (t.locals scope).filterMap fun l => t.symbols[l.2]?

def outlineLines (t : HandleTree σ) : Nat → Nat → Nat → List (Nat × String)
  | 0, _, _ => []
  | fuel + 1, depth, scope =>
    match t.scopes[scope]? with
    | none => []
    | some s =>
      (depth, ScopeTree.scopeLine s.kind) ::
        ((t.symbolsIn scope).map fun x => (depth + 1, ScopeTree.symbolLine x.toScriptSymbol)) ++
        s.children.flatMap (t.outlineLines fuel (depth + 1))

def outline (t : HandleTree σ) : String :=
  String.join ((t.outlineLines t.scopes.length 0 0).map fun l =>
    String.join (List.replicate l.1 "  ") ++ l.2 ++ "\n")

end HandleTree

def HandleScope.rename (ρ : Nat → Nat) (s : HandleScope) : HandleScope :=
  { s with locals := s.locals.map fun l => (ρ l.1, l.2) }

def HandleSymbol.rename (ρ : Nat → Nat) (x : HandleSymbol) : HandleSymbol :=
  { x with handle := ρ x.handle }

/-! ## The table of the program -/

namespace Names

variable {n : Names} {name other : String} {handle : Nat}

theorem snd_intern (n : Names) (name : String) : (n.intern name).2 = n.mention name := by
  unfold intern
  split
  · next h =>
    obtain ⟨hlt, hname, -⟩ := List.idxOf?_eq_some_iff.1 h
    have hknown : n.known.contains name = true :=
      List.contains_iff_mem.2 (hname ▸ List.getElem_mem hlt)
    rw [mention, if_pos hknown]
  · rfl

theorem mention_mention (n : Names) (name : String) :
    (n.mention name).mention name = n.mention name := by
  have hknown : (n.mention name).known.contains name = true :=
    List.contains_iff_mem.2 (mem_known_mention n name)
  rw [mention, if_pos hknown]

theorem handle?_mention (h : n.handle? name = some handle) (other : String) :
    (n.mention other).handle? name = some handle := by
  unfold mention
  split
  · exact h
  · rw [handle?, List.idxOf?, List.findIdx?_append]
    exact (congrArg (Option.or · _) h).trans rfl

theorem handle?_intern (n : Names) (name : String) :
    (n.intern name).2.handle? name = some (n.intern name).1 := by
  unfold intern
  cases h : n.handle? name with
  | some handle => exact h
  | none =>
    -- the name comes last
    have hnew : ¬ n.known.contains name = true :=
      fun hmem => List.idxOf?_eq_none_iff.1 h (List.contains_iff_mem.1 hmem)
    have hnone : n.known.findIdx? (· == name) = none := h
    rw [mention, if_neg hnew, handle?, List.idxOf?, List.findIdx?_append, hnone]
    simp [size]

theorem handle?_inj (h : n.handle? name = some handle) (h' : n.handle? other = some handle) :
    name = other := by
  obtain ⟨_, hname, -⟩ := List.idxOf?_eq_some_iff.1 h
  obtain ⟨_, hother, -⟩ := List.idxOf?_eq_some_iff.1 h'
  exact hname.symm.trans hother

end Names

instance : NameTable Names where
  handle? := Names.handle?
  intern := Names.intern
  handle?_intern := Names.handle?_intern
  handle?_kept h other := by
    rw [Names.snd_intern]
    exact Names.handle?_mention h other
  handle?_inj := Names.handle?_inj

end ScriptOutline
