import ScriptOutline.Text.Cursor
import ScriptOutline.Token.Fault
import ScriptOutline.Token.Literal

/-!
Tokens of a text, one at a time.
-/

namespace ScriptOutline

open Text

/-- The text of a block comment and what follows its end; `cs` follows the
opening mark. -/
def closeComment? : List Char → Option (List Char × List Char)
  | [] => none
  | '*' :: '/' :: cs => some ([], cs)
  | c :: cs => (closeComment? cs).map fun r => (c :: r.1, r.2)

theorem eq_of_closeComment? {cs text rest : List Char}
    (h : closeComment? cs = some (text, rest)) : cs = text ++ '*' :: '/' :: rest := by
  fun_induction closeComment? cs generalizing text with
  | case1 => simp at h
  | case2 cs =>
    simp only [Option.some.injEq, Prod.mk.injEq] at h
    obtain ⟨rfl, rfl⟩ := h
    rfl
  | case3 c cs _ ih =>
    obtain ⟨⟨t, r⟩, hr, he⟩ := Option.map_eq_some_iff.1 h
    simp only [Prod.mk.injEq] at he
    obtain ⟨rfl, rfl⟩ := he
    rw [ih hr]
    rfl

/-- White space and comments before a token.  The cursor stands behind them,
or on a block comment that is never closed. -/
structure Gap where
  cursor : Cursor
  comments : List Comment := []
  lineBreak : Bool := false
  unclosed : Bool := false
deriving DecidableEq, Repr

namespace Gap

def withComment (comment : Comment) (lineBreak : Bool) (g : Gap) : Gap :=
  { g with comments := comment :: g.comments, lineBreak := lineBreak || g.lineBreak }

def read (c : Cursor) : Gap :=
  match h : c.rest with
  | '/' :: '/' :: body =>
    let text := body.takeWhile (!isLineBreak ·)
    let after := c.move (2 + text.length)
    (read after).withComment
      { kind := .line, text := String.ofList text, location := c.locate after } false
  | '/' :: '*' :: body =>
    match hc : closeComment? body with
    | some (text, _) =>
      let after := c.move (4 + text.length)
      (read after).withComment
        { kind := .block, text := String.ofList text, location := c.locate after }
        (text.any isLineBreak)
    | none => { cursor := c, unclosed := true }
  | ch :: _ =>
    if isLineBreak ch then { read c.step with lineBreak := true }
    else if isBlank ch then read c.step
    else { cursor := c }
  | [] => { cursor := c }
termination_by c.rest.length
decreasing_by
  all_goals simp only [Cursor.rest_move, Cursor.rest_step, h, List.length_drop, List.length_tail,
    List.length_cons]
  all_goals omega

@[simp] theorem reach_read (c : Cursor) : (read c).cursor.reach = c.reach := by
  fun_induction read c with
  | case1 c body h text after ih => simpa [withComment, after] using ih
  | case2 c body h text rest hc after ih => simpa [withComment, after] using ih
  | case3 => rfl
  | case4 c ch rest h _ _ hb next ih => simpa using ih
  | case5 c ch rest h _ _ hb hw ih => simpa using ih
  | case6 => rfl
  | case7 => rfl

end Gap

def keywords : List String :=
  ["break", "case", "catch", "const", "continue", "debugger", "default", "do", "else",
   "finally", "for", "function", "if", "let", "return", "switch", "throw", "try", "var",
   "while", "with"]

def wordOperators : List String := ["in", "instanceof", "typeof", "new", "void", "delete"]

def atoms : List String := ["true", "false", "null", "undefined"]

def wordKind (word : String) : TokenKind :=
  if keywords.contains word then .keyword
  else if wordOperators.contains word then .operator
  else if atoms.contains word then .atom
  else .name

/-- The operator signs, longer ones first, so that the first that fits is the
longest. -/
def signOperators : List String :=
  [">>>=", "===", "!==", ">>>", "<<=", ">>=", "**=", "==", "!=", "<=", ">=", "&&", "||", "++",
   "--", "+=", "-=", "*=", "/=", "%=", "&=", "|=", "^=", "<<", ">>", "**", "=>", "=", "<", ">",
   "!", "~", "?", "+", "-", "*", "/", "%", "&", "|", "^"]

def signOperator? (cs : List Char) : Option String :=
  signOperators.find? (·.toList.isPrefixOf cs)

/-- Punctuation other than the point, which may also begin a number. -/
def isPunctuationMark (c : Char) : Bool :=
  ['[', ']', '\x7b', '\x7d', '(', ')', ',', ';', ':'].contains c

/-! ## One token -/

/-- What stands at the next characters. -/
inductive Cut where
  /-- A token that takes `length` characters. -/
  | token (kind : TokenKind) (length : Nat) (value : String)
  /-- No token.  The fault covers `length` characters, and scanning goes on
  behind `passed` of them. -/
  | fault (fault : LexFault) (length passed : Nat)
deriving DecidableEq, Repr

namespace Cut

def spelled (kind : TokenKind) (cs : List Char) (length : Nat) : Cut :=
  .token kind length (String.ofList (cs.take length))

def word [IdentifierTable] (cs : List Char) : Cut :=
  let length := runLength isIdentifierPart cs
  .spelled (wordKind (String.ofList (cs.take length))) cs length

def string (mark : Char) (body : List Char) : Cut :=
  let s := Literal.StringScan.run mark body { rest := body }
  let length := 1 + (s.passed body).length
  if s.closed then .token .string (length + 1) (s.value body)
  else .fault .unterminatedString length length

def regexp [IdentifierTable] (cs : List Char) : Cut :=
  let e := Literal.regexp cs
  if e.closed then .spelled .regexp cs e.length
  else .fault .unterminatedRegexp e.length e.length

/-- Whether a slash here divides or opens a regular expression depends on the
token before, hence `regexpAllowed`. -/
def read [IdentifierTable] (regexpAllowed : Bool) (cs : List Char) : Cut :=
  match cs with
  | [] => .token .eof 0 ""
  | c :: rest =>
    if isPunctuationMark c then .spelled .punctuation cs 1
    else if c == '.' then
      if rest.head?.any isDigit then .spelled .number cs (Literal.numberLength cs)
      else .spelled .punctuation cs 1
    else if c == '\x27' || c == '\x22' then .string c rest
    else if isDigit c then .spelled .number cs (Literal.numberLength cs)
    else if c == '/' && regexpAllowed then .regexp cs
    else if isIdentifierStart c then .word cs
    else match signOperator? cs with
      | some sign => .token .operator sign.length sign
      | none => .fault (.invalidCharacter c) 1 0

end Cut

/-- Whether a slash behind the token divides. -/
def Token.endsValue (t : Token) : Bool :=
  match t.kind with
  | .name | .atom | .number | .string | .regexp => true
  | .punctuation => t.isClosing
  | .operator => t.value == "++" || t.value == "--"
  | .keyword | .eof => false

/-- A place between two tokens of a text. -/
structure Lexer where
  cursor : Cursor
  regexpAllowed : Bool := true
deriving DecidableEq, Repr

namespace Lexer

/-- A first line that begins with `#!` is for the system and not part of the
script. -/
def shebangLength (cs : List Char) : Nat :=
  match cs with
  | '#' :: '!' :: rest => 2 + runLength (!isLineBreak ·) rest
  | _ => 0

def ofText (text : String) : Lexer :=
  let start := Cursor.ofText text
  { cursor := start.move (shebangLength start.rest) }

/-- The next token or the fault in its place, and where scanning goes on.  At
the end of the text every token is `eof`. -/
def next [IdentifierTable] (l : Lexer) : Except LexError Token × Lexer :=
  let gap := Gap.read l.cursor
  let start := gap.cursor
  if gap.unclosed then
    (.error { fault := .unterminatedComment, location := start.locate (start.move start.rest.length) },
     { l with cursor := start })
  else
    match Cut.read l.regexpAllowed start.rest with
    | .token kind length value =>
      let after := start.move length
      let token : Token :=
        { kind, value, location := start.locate after, lineBreak := gap.lineBreak
          comments := gap.comments }
      (.ok token, { cursor := after, regexpAllowed := !token.endsValue })
    | .fault fault length passed =>
      (.error { fault, location := start.locate (start.move length) },
       { l with cursor := start.move passed })

@[simp] theorem reach_next [IdentifierTable] (l : Lexer) :
    l.next.2.cursor.reach = l.cursor.reach := by
  dsimp only [next]
  split
  · simp
  · split <;> simp

end Lexer

end ScriptOutline
