import ScriptOutline.Script.Reader

/-!
Control flow and labelled statements, which are kept as token trees.
-/

namespace ScriptOutline

def Token.skippedKeywords : List String :=
  ["if", "for", "while", "do", "switch", "try", "with", "throw", "continue", "break"]

def Token.opensConstruct (t : Token) : Bool :=
  t.kind == .keyword && Token.skippedKeywords.contains t.value

namespace Construct

open Reader

def isLabel (t : Token) : Reader Bool := do
  if t.kind == .name then return (← peek).isPunctuation ":" else return false

def leaf : Reader TokenTree := do
  let t ← token
  let _ ← advance
  return .leaf t

def bracketed (opening : String) : Reader TokenTree := do
  let _ ← expectPunctuation opening
  group

/-- The semicolon at the end of a construct, if there is one.  One that was put
in is not kept, since it depends on where the line ends. -/
def semicolon : Reader (List TokenTree) := do
  let t ← token
  if t.isPunctuation ";" then
    let _ ← advance
    return if t.inserted then [] else [.leaf t]
  else return []

/-- Everything through the next semicolon outside brackets.  A closing bracket
ends it too. -/
def rest : Reader (List TokenTree) := do
  let trees ← gather fun _ t => t.isEof || t.isClosing || t.isPunctuation ";"
  return trees ++ (← semicolon)

def body (inner : Readers) : Reader (List TokenTree) := do
  let t ← token
  if t.isPunctuation "\x7b" then return [← group]
  let labelled ← isLabel t
  if labelled || t.opensConstruct then return .leaf t :: (← inner.construct)
  else rest

def catchClause : Reader (Option (List TokenTree)) := do
  if (← token).isKeyword "catch" then
    let word ← leaf
    let parameter ← bracketed "("
    return some [word, parameter, ← bracketed "\x7b"]
  else return none

def optional (word : String) (then_ : Reader (List TokenTree)) : Reader (List TokenTree) := do
  if (← token).isKeyword word then
    let first ← leaf
    return first :: (← then_)
  else return []

def afterKeyword (inner : Readers) (keyword : String) : Reader (List TokenTree) := do
  match keyword with
  | "if" =>
    let condition ← bracketed "("
    let consequence ← body inner
    return condition :: consequence ++ (← optional "else" (body inner))
  | "for" | "while" | "with" =>
    let header ← bracketed "("
    return header :: (← body inner)
  | "do" =>
    let repeated ← body inner
    let _ ← expect (.exactly .keyword "while")
    let word ← leaf
    let condition ← bracketed "("
    return repeated ++ word :: condition :: (← semicolon)
  | "switch" =>
    let subject ← bracketed "("
    return [subject, ← bracketed "\x7b"]
  | "try" =>
    let tried ← bracketed "\x7b"
    let caught ← many catchClause
    let last ← optional "finally" (do return [← bracketed "\x7b"])
    return tried :: caught.flatten ++ last
  | "continue" | "break" =>
    let t ← token
    let label ← if t.kind == .name && !t.lineBreak then (do return [← leaf]) else pure []
    return label ++ (← semicolon)
  | _ => rest

/-- Read the construct at the current token.  The trees leave out that
token. -/
def read (inner : Readers) : Reader (List TokenTree) := do
  let keyword ← token
  let _ ← advance
  if keyword.kind == .name then
    let colon ← expectPunctuation ":"
    let _ ← advance
    return .leaf colon :: (← body inner)
  else afterKeyword inner keyword.value

def node (inner : Readers) : Reader Node := do
  let keyword ← token
  let trees ← read inner
  warn keyword (.constructSkipped keyword.value)
  return .skipped keyword.comments keyword trees

end Construct

end ScriptOutline
