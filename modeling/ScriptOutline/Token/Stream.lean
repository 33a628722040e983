import ScriptOutline.Repeat
import ScriptOutline.Token.Feed
import ScriptOutline.Token.Tree

/-!
Tokens as a reader meets them: one token of lookahead, semicolons where a line
break ends a statement, comments known to both tokens beside them, and
brackets read as groups.
-/

namespace ScriptOutline

/-- Keywords whose statement ends with their line. -/
def Token.isJump (t : Token) : Bool :=
  t.isKeyword "continue" || t.isKeyword "break" || t.isKeyword "return" || t.isKeyword "throw"

/-- An operator or one of `( [ .`, beside which an expression goes on. -/
def Token.continues (t : Token) : Bool :=
  t.kind == .operator || t.isPunctuation "(" || t.isPunctuation "[" || t.isPunctuation "."

/-- Whether a semicolon belongs between two neighbouring tokens. -/
def needsSemicolon (last next : Token) : Bool :=
  next.lineBreak && (next.isOperator "++" || last.isJump) &&
  !(last.isPunctuation ";" || next.isPunctuation ";") &&
  !last.continues && !next.continues

/-- Whether the tokens so far end between the keyword `for` and the bracket
that closes its header, and how many round brackets are open there. -/
structure ForHeader where
  active : Bool := false
  brackets : Nat := 0
deriving DecidableEq, Repr

namespace ForHeader

def track (h : ForHeader) (t : Token) : ForHeader :=
  if t.isKeyword "for" then { active := true }
  else if !h.active then h
  else if t.isPunctuation "(" then { h with brackets := h.brackets + 1 }
  else if t.isPunctuation ")" then
    { active := decide (1 < h.brackets), brackets := h.brackets - 1 }
  else h

end ForHeader

/-! ## The stream -/

/-- A token in the reader's window.  The comments behind it are known once the
next token has been fetched. -/
structure Seen where
  token : Token
  after : Option (List Comment) := none
deriving DecidableEq, Repr

namespace Seen

/-- The comments behind a token are those before the next one.  A semicolon
that was put in has none. -/
def followedBy (s : Seen) (next : Token) : Seen :=
  if s.token.inserted || s.after.isSome then s else { s with after := some next.comments }

end Seen

def Token.isPutIn (t : Token) : Bool := t.inserted && t.isPunctuation ";"

/-- What a token adds to the measure of a stream while it is the last one
fetched.  A semicolon is put in behind heavier tokens only. -/
def Token.weight (t : Token) : Nat := if t.isEof then 0 else if t.isPutIn then 1 else 2

structure TokenStream where
  feed : TokenFeed
  header : ForHeader := {}
  previous : Option Seen := none
  current : Option Seen := none
  peeked : Option Seen := none

/-- Reading from a stream.  An operation that fails still leaves a stream to
go on with. -/
abbrev Streaming := EStateM ReadError TokenStream

namespace TokenStream

def ofFeed (feed : TokenFeed) : TokenStream := { feed }

/-- Whether a semicolon belongs before `next`.  The token fetched last is the
current one, since nothing is fetched while a peeked token waits. -/
def semicolonDue (s : TokenStream) (next : Token) : Bool :=
  match s.current with
  | some last => !s.header.active && needsSemicolon last.token next
  | none => false

/-- What is left to read, in a measure that falls with every advance up to the
end of the input.  A token of the feed weighs three: one for itself, one for a
semicolon before it, and one so that it outweighs the token that replaces
it. -/
def remaining (s : TokenStream) : Nat :=
  3 * s.feed.size +
    match s.peeked, s.current with
    | some p, _ => p.token.weight + 1
    | none, some c => c.token.weight
    | none, none => 0

/-- Take the next token from the feed, or put a semicolon before it. -/
def fetch : Streaming Seen := do
  let s ← get
  match s.feed.next with
  | (.error e, feed) =>
    set { s with feed }
    throw (.ofLexError e)
  | (.ok next, feed) =>
    let current := s.current.map fun c => c.followedBy next
    let s' := { s with current, header := s.header.track next }
    if s.semicolonDue next then
      set s'
      return { token := .semicolonBefore next }
    else
      set { s' with feed }
      return { token := next }

/-- The current token; the first call fetches it. -/
def currentSeen : Streaming Seen := do
  match (← get).current with
  | some c => return c
  | none =>
    let c ← fetch
    modify fun s => { s with current := some c }
    return c

def peekSeen : Streaming Seen := do
  let _ ← currentSeen
  match (← get).peeked with
  | some p => return p
  | none =>
    let p ← fetch
    modify fun s => { s with peeked := some p }
    return p

def advanceSeen : Streaming Seen := do
  let _ ← currentSeen
  let next ← match (← get).peeked with
    | some p => pure p
    | none => fetch
  modify fun s => { s with previous := s.current, current := some next, peeked := none }
  return next

def token : Streaming Token := do return (← currentSeen).token

def peek : Streaming Token := do return (← peekSeen).token

def advance : Streaming Token := do return (← advanceSeen).token

/-- The current token, which has to fit the pattern. -/
def expect (p : TokenPattern) : Streaming Token := do
  let t ← token
  if p.accepts t then return t else throw (.unexpected p t)

/-- How many conditionals `? :` are open behind a token. -/
def conditionalsAfter (conditionals : Nat) (t : Token) : Nat :=
  if t.isOperator "?" then conditionals + 1
  else if t.isPunctuation ":" then conditionals - 1
  else conditionals

/-- Collect trees up to a token that `ends` them, which stays the current one.
`ends` is told how many conditionals are open. -/
def gather (group : Streaming TokenTree) (ends : Nat → Token → Bool) : Streaming (List TokenTree) :=
  Repeat.collect remaining (fun conditionals => do
    let t ← token
    if ends conditionals t then return none
    else if t.isOpening then return some (← group, conditionals)
    else
      let _ ← advance
      return some (.leaf t, conditionalsAfter conditionals t)) 0

/-- Pass the current token and collect the trees before the first token that
fits `p` outside brackets. -/
def treesUntil (group : Streaming TokenTree) (p : TokenPattern) : Streaming (List TokenTree) := do
  let _ ← advance
  let trees ← gather group fun _ t => p.accepts t || t.isEof
  let t ← token
  if p.accepts t then return trees else throw (.endOfInput t)

/-- The group that the current token opens; groups may be nested `depth` deep.
The token behind the closing bracket becomes the current one. -/
def groupWithin : Nat → Streaming TokenTree
  | 0 => do throw (.nestingTooDeep (← expect .opening))
  | depth + 1 => do
    let opener ← expect .opening
    let trees ← treesUntil (groupWithin depth) (.punctuation (closingOf opener.value))
    let closer ← token
    let _ ← advance
    return .group opener trees closer

def group : Streaming TokenTree := groupWithin nestingLimit

/-- Pass the current token and collect what stands before the first token that
fits `p`; `stay` says whether that token stays the current one. -/
def skipUntil (p : TokenPattern) (stay : Bool) : Streaming (List TokenTree) := do
  let trees ← treesUntil group p
  if !stay then
    let _ ← advance
  return trees

def drain : Streaming (List Token) := do
  let t ← token
  let rest ← Repeat.collect remaining (fun (last : Token) => do
    if last.isEof then return none
    else
      let t ← advance
      return some (t, t)) t
  return t :: rest

end TokenStream

end ScriptOutline
