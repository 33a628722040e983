import ScriptOutline.Script.Construct
import ScriptOutline.Script.Expression

/-!
Statements.  One statement gives no node, one or several.
-/

namespace ScriptOutline
namespace Statement

open Reader

/-- The end of a statement.  The semicolon may be missing before a closing
brace, at the end of the input and at the end of a line. -/
def terminator : Reader Unit := do
  let t ← token
  if t.isPunctuation ";" then
    let _ ← advance
  else if t.isPunctuation "\x7d" || t.isEof || t.startsLine then return ()
  else
    let _ ← expectPunctuation ";"

def afterComma {α : Type} (item : Reader α) : Reader (Option α) := do
  if (← token).isPunctuation "," then
    let _ ← advance
    return some (← item)
  else return none

def expressions (inner : Readers) : Reader (List Node) := do
  let first ← inner.expression
  let more ← many (afterComma inner.expression)
  terminator
  return first :: more

/-- A function declaration declares its name and assigns the function to it. -/
def functionDeclaration (inner : Readers) : Reader (List Node) := do
  let keyword ← token
  let name ← peek
  if name.kind != .name then throw (.unexpected (.anyOf .name) name)
  let (head, body) ← Expression.function inner
  let comments := keyword.comments
  return [.declaration comments .varWord name,
    .assignment comments { root := name } "=" (.function comments head body)]

/-- One declared name with its value, if it has one.  `leading` are comments
of the declaration as a whole. -/
def declarator (inner : Readers) (word : DeclarationWord) (leading : List Comment) :
    Reader (List Node) := do
  let name ← expect (.anyOf .name)
  let comments := leading ++ name.comments
  if (← advance).isOperator "=" then
    let _ ← advance
    let value ← inner.expression
    return [.declaration comments word name, .assignment comments { root := name } "=" value]
  else return [.declaration comments word name]

def declarations (inner : Readers) : Reader (List Node) := do
  let keyword ← token
  let word := if keyword.value == "let" then DeclarationWord.letWord else .varWord
  let _ ← advance
  let first ← declarator inner word keyword.comments
  let more ← many (afterComma (declarator inner word []))
  terminator
  return first ++ more.flatten

/-- The values of a return before the last are statements of their own, and
the comments of the return go to the first of them. -/
def returned (comments : List Comment) (value : Node) : List Node → List Node
  | [] => [.returnValue comments value]
  | next :: more =>
    (if comments.isEmpty then value else value.withComments comments) :: returned [] next more

def returns (inner : Readers) : Reader (List Node) := do
  let keyword ← token
  let t ← advance
  if t.isPunctuation ";" || t.isPunctuation "\x7d" || t.isEof then
    terminator
    return [.returnNothing keyword.comments]
  else
    let first ← inner.expression
    let more ← many (afterComma inner.expression)
    terminator
    return returned keyword.comments first more

def read (inner : Readers) : Reader (List Node) := do
  let t ← token
  let labelled ← Construct.isLabel t
  match t.kind with
  | .keyword =>
    if t.value == "function" then functionDeclaration inner
    else if t.value == "var" || t.value == "let" then declarations inner
    else if t.value == "return" then returns inner
    else if t.value == "debugger" then
      let _ ← advance
      terminator
      return []
    else if t.opensConstruct then return [← Construct.node inner]
    else throw (.invalidStatement t)
  | .punctuation =>
    if t.value == "\x7b" then
      return [.block t.comments (← Expression.braces inner)]
    else if t.value == ";" then
      let _ ← advance
      return []
    else if t.value == "(" || t.value == "[" then expressions inner
    else throw (.invalidStatement t)
  | .name => if labelled then return [← Construct.node inner] else expressions inner
  | .atom | .string | .number | .regexp | .operator => expressions inner
  | .eof => throw (.invalidStatement t)

end Statement

namespace Readers

def exhausted : Readers :=
  { statement := Reader.tooDeep
    expression := Reader.tooDeep
    value := Reader.tooDeep
    construct := Reader.tooDeep }

def around (inner : Readers) : Readers :=
  { statement := Reader.nested (Statement.read inner)
    expression := Reader.nested (Expression.read inner)
    value := Reader.nested (Expression.value inner)
    construct := Reader.nested (Construct.read inner) }

/-- The readers for scripts nested at most `depth` deep. -/
def within : Nat → Readers
  | 0 => exhausted
  | depth + 1 => around (within depth)

end Readers

structure Script where
  body : List Node := []
  warnings : List Warning := []
deriving Repr

namespace Script

/-- A whole script is a block that ends with the input. -/
def read : Reader (List Node) := do
  let body ← Expression.block (.within nestingLimit)
  let t ← Reader.token
  if t.isEof then return body else throw (.invalidStatement t)

def ofFeed (feed : TokenFeed) : Except ReadError Script :=
  match read (.ofFeed feed) with
  | .ok body r => .ok { body, warnings := r.warnings }
  | .error e _ => .error e

def ofText [IdentifierTable] (text : String) : Except ReadError Script := ofFeed (.ofText text)

def ofTokens (tokens : List Token) : Except ReadError Script := ofFeed (.ofTokens tokens)

def isEmpty (s : Script) : Bool := s.body.isEmpty

def diagnostics (s : Script) : DiagnosticLog := { entries := s.warnings.map (·.toDiagnostic) }

end Script

end ScriptOutline
