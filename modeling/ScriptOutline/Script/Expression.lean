import ScriptOutline.Script.Reader

/-!
Expressions.  What names, calls or assigns is taken apart; what follows it in a
larger expression is kept as a tail, and everything else as token trees.
-/

namespace ScriptOutline

namespace Token

def assignmentOperators : List String :=
  ["=", "+=", "-=", "*=", "/=", "%=", "<<=", ">>=", ">>>=", "&=", "|=", "^="]

def isAssignment (t : Token) : Bool :=
  t.kind == .operator && assignmentOperators.contains t.value

/-- Operators that may stand before a function to have it called. -/
def invokingOperators : List String := ["!", "~", "+", "-", "typeof", "void", "delete"]

/-- Operators that may begin an expression, `new` apart. -/
def leadingOperators : List String := ["!", "~", "+", "-", "++", "--", "typeof", "void", "delete"]

def isLeadingOperator (t : Token) : Bool :=
  t.kind == .operator && leadingOperators.contains t.value

/-- Whether a function behind the token may be called where it stands. -/
def mayInvoke (t : Token) : Bool :=
  t.isPunctuation "(" || (t.kind == .operator && invokingOperators.contains t.value)

end Token

namespace Expression

open Reader

/-- A colon ends an expression unless it answers a question mark in it. -/
def endsRest (conditionals : Nat) (t : Token) : Bool :=
  t.isEof || t.isPunctuation ";" || t.isPunctuation "," || t.isClosing ||
  (t.isPunctuation ":" && conditionals == 0)

/-- The rest of an expression, which may be empty. -/
def rest : Reader (List TokenTree) := gather endsRest

/-- What continues the expression behind the value just read. -/
def continuation : Reader (List TokenTree) := do
  if (← token).endsExpression then return [] else rest

/-- The tail of a value, if there is more behind it than was taken apart. -/
def tail : Reader (Option (List TokenTree)) := do
  let t ← token
  if t.endsExpression then return none
  else
    let trees ← rest
    warn t .incompleteExpression
    return some trees

/-- Drop the tail of a value that has no place for one. -/
def dropTail : Reader Unit := do
  let _ ← tail

def argument (inner : Readers) : Reader (Option Node) := do
  if (← token).isPunctuation ")" then return none
  else
    let node ← inner.expression
    if (← token).isPunctuation "," then
      let _ ← advance
    else
      let _ ← expectPunctuation ")"
    return some node

def arguments (inner : Readers) : Reader (List Node) := do
  pass "("
  let nodes ← many (argument inner)
  let _ ← advance
  return nodes

/-- One element with the comma behind it.  A hole is an empty expression. -/
def element (inner : Readers) : Reader (Option Node) := do
  let t ← token
  if t.isPunctuation "]" then return none
  else if t.isPunctuation "," then
    let _ ← advance
    return some (.expression [] [])
  else
    let node ← inner.expression
    if (← token).isPunctuation "," then
      let _ ← advance
    else
      let _ ← expectPunctuation "]"
    return some node

def elements (inner : Readers) : Reader (List Node) := do
  let _ ← advance
  let nodes ← many (element inner)
  let _ ← advance
  return nodes

/-! ## Functions -/

/-- Statements up to a closing brace or the end of the input. -/
def block (inner : Readers) : Reader (List Node) := do
  let statements ← many do
    let t ← token
    if t.isEof || t.isPunctuation "\x7d" then return none
    else return some (← inner.statement)
  return statements.flatten

def braces (inner : Readers) : Reader (List Node) := do
  pass "\x7b"
  let body ← block inner
  pass "\x7d"
  return body

def parameter : Reader (Option Token) := do
  if (← token).isPunctuation ")" then return none
  else
    let name ← expect (.anyOf .name)
    if (← advance).isPunctuation "," then
      let _ ← advance
    else
      let _ ← expectPunctuation ")"
    return some name

/-- The name behind `function`; a function without one gets the next number. -/
def functionName : Reader FunctionName := do
  let t ← advance
  if t.kind == .name then
    let _ ← advance
    return .named t
  else
    modify fun r => { r with anonymous := r.anonymous + 1 }
    return .anonymous (← get).anonymous

def function (inner : Readers) : Reader (FunctionHead × List Node) := do
  let _ ← expect (.exactly .keyword "function")
  let name ← functionName
  pass "("
  let parameters ← many parameter
  let _ ← advance
  let body ← braces inner
  return ({ name, parameters }, body)

/-- A function behind a bracket or an operator.  Only a call right behind it is
taken apart; otherwise the function stands by itself. -/
def immediate (inner : Readers) : Reader Node := do
  let lead ← token
  let keyword ← advance
  let comments := lead.comments ++ keyword.comments
  let (head, body) ← function inner
  let bracketed := lead.isPunctuation "("
  let closed ← if bracketed then do pure ((← token).isPunctuation ")") else pure false
  if closed then
    let _ ← advance
  if (← token).isPunctuation "(" then
    let arguments ← arguments inner
    if bracketed && !closed then pass ")"
    dropTail
    return .immediate comments head body arguments
  else
    dropTail
    if bracketed && !closed then
      pass ")"
      dropTail
    return .function comments head body

/-! ## Paths and references -/

inductive Property where
  | name (token : Token)
  /-- The key in the bracket `opener` has to be computed. -/
  | computed (opener : Token)

/-- The string in a group that holds nothing else. -/
def stringKey? : TokenTree → Option Token
  | .group _ [.leaf key] _ => if key.kind == .string then some key else none
  | _ => none

def property : Reader (Option Property) := do
  let t ← token
  if t.isPunctuation "." then
    let name ← advance
    if name.isPropertyName then
      let _ ← advance
      return some (.name name)
    else throw (.unexpected (.anyOf .name) name)
  else if t.isPunctuation "[" then
    match stringKey? (← group) with
    | some key => return some (.name key)
    | none => return some (.computed t)
  else return none

/-- The properties behind a path, up to the first that has to be computed. -/
def properties : Reader (List Property) :=
  Repeat.collect Reading.remaining (fun (known : Bool) => do
    if known then
      match ← property with
      | some (.name t) => return some (.name t, true)
      | some (.computed t) => return some (.computed t, false)
      | none => return none
    else return none) true

/-- The path that properties make, unless one had to be computed. -/
def pathOf (root : Token) (properties : List Property) : Except Token SymbolPath := do
  let names ← properties.mapM fun
    | .name t => .ok t
    | .computed t => .error t
  return { root, properties := names }

def path : Reader (Option SymbolPath) := do
  let root ← token
  let _ ← advance
  match pathOf root (← properties) with
  | .ok path => return some path
  | .error opener =>
    warn opener .computedAccess
    return none

def link (inner : Readers) : Reader (Option Node) := do
  if (← token).isPunctuation "." then
    let first ← advance
    if !first.isPropertyName then throw (.unexpected (.anyOf .name) first)
    let path ← path
    if (← token).isPunctuation "(" then
      let arguments ← arguments inner
      match path with
      | some callee => return some (.call first.comments callee arguments)
      | none => return some (.invocation first.comments none arguments [] none)
    else return some (.reference first.comments path none)
  else return none

/-- What follows the path of a reference: a call with its chain, then the
tail. -/
def referenceTo (inner : Readers) (comments : List Comment) (path : Option SymbolPath) :
    Reader Node := do
  if (← token).isPunctuation "(" then
    let arguments ← arguments inner
    let chain ← many (link inner)
    return .invocation comments path arguments chain (← tail)
  else return .reference comments path (← tail)

def primitiveKind? (t : Token) : Option PrimitiveKind :=
  match t.kind with
  | .string => some .string
  | .number => some .number
  | .regexp => some .regexp
  | .atom =>
    if t.value == "true" || t.value == "false" then some .boolean
    else if t.value == "null" then some .null
    else some .undefined
  | _ => none

/-- A literal, unless an operator makes it part of a larger expression. -/
def primitive (kind : PrimitiveKind) (t : Token) : Reader Node := do
  if (← advance).endsExpression then return .primitive t.comments kind t
  else return .expression t.comments (.leaf t :: (← rest))

def value (inner : Readers) : Reader Node := do
  let t ← token
  match primitiveKind? t with
  | some kind => primitive kind t
  | none =>
    if t.isKeyword "function" then
      let (head, body) ← function inner
      dropTail
      return .function t.comments head body
    else if t.isPunctuation "(" then
      let head ← group
      return .expression t.comments (head :: (← continuation))
    else if t.isPunctuation "[" then
      let nodes ← elements inner
      dropTail
      return .array t.comments nodes
    else if t.isPunctuation "\x7b" then
      let head ← group
      let more ← continuation
      return if more.isEmpty then .object t.comments [head] else .expression t.comments (head :: more)
    else if t.kind == .name then
      let path ← path
      referenceTo inner t.comments path
    else if t.isOperator "new" then
      let _ ← advance
      return .instantiation t.comments (← inner.expression)
    else if t.isEof then throw (.endOfInput t)
    else throw { fault := .unknownStructure t, location := t.location }

/-- An assignment or a reference, from a name. -/
def assignmentOrReference (inner : Readers) (first : Token) : Reader Node := do
  let path ← path
  let operator ← token
  match path with
  | some target =>
    if operator.isAssignment then
      let _ ← advance
      return .assignment first.comments target operator.value (← inner.expression)
    else referenceTo inner first.comments path
  | none => referenceTo inner first.comments path

def read (inner : Readers) : Reader Node := do
  let t ← token
  let invoked ← if t.mayInvoke then do pure ((← peek).isKeyword "function") else pure false
  if invoked then immediate inner
  else if t.kind == .name then assignmentOrReference inner t
  else if t.isLeadingOperator then
    let _ ← advance
    return .expression t.comments (.leaf t :: (← rest))
  else inner.value

end Expression

end ScriptOutline
