import ScriptOutline.Token.Lexer

/-!
Everything that scanning a text will ever deliver.
-/

namespace ScriptOutline

/-- Tokens and faults in order, then `final` for ever.  Scanning ends either
at the end of the text or at a fault that it cannot get past, so a finite list
and one item describe it.  The number of items is kept with them, since readers
ask for it at every step. -/
structure TokenFeed where
  items : List (Except LexError Token)
  final : Except LexError Token
  size : Nat := items.length
  size_eq : size = items.length := by rfl

namespace TokenFeed

def cons (item : Except LexError Token) (f : TokenFeed) : TokenFeed :=
  { items := item :: f.items, final := f.final, size := f.size + 1, size_eq := by simp [f.size_eq] }

def next (f : TokenFeed) : Except LexError Token × TokenFeed :=
  match h : f.items with
  | [] => (f.final, f)
  | item :: items =>
    (item, { items, final := f.final, size := f.size - 1, size_eq := by simp [f.size_eq, h] })

@[simp] theorem next_cons (item : Except LexError Token) (f : TokenFeed) :
    (f.cons item).next = (item, f) := by
  cases f
  simp [next, cons]

/-- The deliveries of a lexer.  The item for which it does not move is the
one that repeats. -/
def ofLexer [IdentifierTable] (l : Lexer) : TokenFeed :=
  let step := l.next
  if l.cursor.offset < step.2.cursor.offset then (ofLexer step.2).cons step.1
  else { items := [], final := step.1 }
termination_by Text.byteLength l.cursor.rest
decreasing_by
  have moved : l.cursor.offset < l.next.2.cursor.offset := by assumption
  have same := l.reach_next
  simp only [Cursor.reach] at same
  omega

def ofText [IdentifierTable] (text : String) : TokenFeed := ofLexer (Lexer.ofText text)

/-- Given tokens, then the end of the input behind the last of them. -/
def ofTokens (tokens : List Token) : TokenFeed :=
  { items := tokens.map .ok
    final := .ok { kind := .eof, location := (tokens.getLast?.map (·.location.back)).getD {} } }

end TokenFeed

/-- The tokens of a text through `eof`, or up to the first fault. -/
structure Scan where
  tokens : List Token := []
  error : Option LexError := none

namespace Scan

def cons (t : Token) (s : Scan) : Scan := { s with tokens := t :: s.tokens }

def ofItems (final : Except LexError Token) : List (Except LexError Token) → Scan
  | [] =>
    match final with
    | .ok t => { tokens := [t] }
    | .error e => { error := some e }
  | .ok t :: items => if t.isEof then { tokens := [t] } else (ofItems final items).cons t
  | .error e :: _ => { error := some e }

def ofText [IdentifierTable] (text : String) : Scan :=
  let feed := TokenFeed.ofText text
  ofItems feed.final feed.items

end Scan

end ScriptOutline
