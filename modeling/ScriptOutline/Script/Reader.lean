import ScriptOutline.Script.Node
import ScriptOutline.Script.Warning
import ScriptOutline.Token.Stream

/-!
The state of reading a script, and what every reader is made of.
-/

namespace ScriptOutline

structure Reading where
  stream : TokenStream
  /-- The functions without a name that have been met. -/
  anonymous : Nat := 0
  warnings : List Warning := []
  /-- How many guarded readers are at work. -/
  depth : Nat := 0

abbrev Reader := EStateM ReadError Reading

namespace Reading

def ofFeed (feed : TokenFeed) : Reading := { stream := .ofFeed feed }

def remaining (r : Reading) : Nat := r.stream.remaining

def deeper (r : Reading) : Reading := { r with depth := r.depth + 1 }

def shallower (r : Reading) : Reading := { r with depth := r.depth - 1 }

end Reading

/-- The readers one level deeper.  A reader is a function of these and calls
itself only through them, so the recursion is over the levels and each reader
can be studied by itself. -/
structure Readers where
  statement : Reader (List Node)
  expression : Reader Node
  value : Reader Node
  construct : Reader (List TokenTree)

namespace Reader

variable {α : Type}

def onStream (x : Streaming α) : Reader α := fun r =>
  match x r.stream with
  | .ok a s => .ok a { r with stream := s }
  | .error e s => .error e { r with stream := s }

theorem onStream_eq_ok {y : Streaming α} {x x' : Reading} {a : α} :
    onStream y x = .ok a x' ↔ ∃ s, y x.stream = .ok a s ∧ x' = { x with stream := s } := by
  unfold onStream
  cases y x.stream with
  | ok b s =>
    constructor
    · intro h
      cases h
      exact ⟨s, rfl, rfl⟩
    · rintro ⟨_, h, rfl⟩
      cases h
      rfl
  | error e s => simp

def token : Reader Token := onStream TokenStream.token

def peek : Reader Token := onStream TokenStream.peek

def advance : Reader Token := onStream TokenStream.advance

def expect (p : TokenPattern) : Reader Token := onStream (TokenStream.expect p)

def expectPunctuation (value : String) : Reader Token := expect (.punctuation value)

def group : Reader TokenTree := onStream TokenStream.group

def gather (ends : Nat → Token → Bool) : Reader (List TokenTree) :=
  onStream (TokenStream.gather TokenStream.group ends)

def pass (value : String) : Reader Unit := do
  let _ ← expectPunctuation value
  let _ ← advance

def many (step : Reader (Option α)) : Reader (List α) := Repeat.many Reading.remaining step

def warn (t : Token) (cause : WarningCause) : Reader Unit :=
  modify fun r => { r with warnings := r.warnings ++ [{ cause, location := t.location }] }

/-- Below the last level every reader gives up at the current token. -/
def tooDeep : Reader α := do throw (.nestingTooDeep (← token))

/-- Read one level deeper, unless that is too deep.  The level is left again
whether `x` succeeds or fails. -/
def nested (x : Reader α) : Reader α := fun r =>
  if nestingLimit ≤ r.depth then tooDeep r
  else match x r.deeper with
    | .ok a r' => .ok a r'.shallower
    | .error e r' => .error e r'.shallower

end Reader

namespace Token

/-- Operators that cannot begin an expression: a line that begins with one
goes on with the line before. -/
def continuationOperators : List String :=
  ["||", "&&", "==", "===", "!=", "!==", "<", "<=", ">", ">=", "*", "/", "%", "|", "&", "^",
   "<<", ">>", ">>>", "in", "instanceof", "?"]

/-- Whether the token begins a line that does not go on with the line before. -/
def startsLine (t : Token) : Bool :=
  t.lineBreak && !(t.kind == .operator && continuationOperators.contains t.value)

def isTerminator (t : Token) : Bool :=
  t.isPunctuation "," || t.isClosing || t.isPunctuation ":"

def endsExpression (t : Token) : Bool :=
  t.isEof || t.isPunctuation ";" || t.startsLine || t.isTerminator

def isPropertyName (t : Token) : Bool :=
  match t.kind with
  | .name | .keyword | .atom => true
  | .operator => t.value.toList.all Text.isLetter
  | _ => false

end Token

end ScriptOutline
