import ScriptOutline.Text.Escaped
import ScriptOutline.Text.Location

/-!
Tokens and the comments around them.
-/

namespace ScriptOutline

inductive CommentKind where
  | line
  | block
deriving DecidableEq, Repr

/-- A comment; `text` leaves the delimiters out. -/
structure Comment where
  kind : CommentKind
  text : String
  location : Location := {}
deriving DecidableEq, Repr

/-- Documentation is a block comment that opens with a second star. -/
def Comment.isDoc (c : Comment) : Bool := c.kind == .block && c.text.startsWith "*"

inductive TokenKind where
  /-- An identifier, `this` among them. -/
  | name
  /-- A word that opens or divides a statement. -/
  | keyword
  /-- `true`, `false`, `null` or `undefined`. -/
  | atom
  /-- One of `[ ] { } ( ) , ; : .` -/
  | punctuation
  /-- An operator sign or one of the words that operate. -/
  | operator
  /-- A string literal; the value is what it denotes. -/
  | string
  /-- A number; the value is its spelling. -/
  | number
  /-- A regular expression; the value is its spelling with slashes and flags. -/
  | regexp
  | eof
deriving DecidableEq, Repr, Inhabited

namespace TokenKind

def all : List TokenKind :=
  [name, keyword, atom, punctuation, operator, string, number, regexp, eof]

def text : TokenKind → String
  | name => "name"
  | keyword => "keyword"
  | atom => "atom"
  | punctuation => "punc"
  | operator => "operator"
  | string => "string"
  | number => "number"
  | regexp => "regexp"
  | eof => "eof"

def ofText? (s : String) : Option TokenKind := all.find? (·.text == s)

end TokenKind

structure Token where
  kind : TokenKind
  value : String := ""
  location : Location := {}
  /-- Whether a line break stands between the token before and this one. -/
  lineBreak : Bool := false
  /-- Whether the token stands in no text but was put in where a statement
  ends. -/
  inserted : Bool := false
  /-- The comments between the token before and this one. -/
  comments : List Comment := []
deriving DecidableEq, Repr, Inhabited

namespace Token

def isPunctuation (t : Token) (value : String) : Bool := t.kind == .punctuation && t.value == value

def isOperator (t : Token) (value : String) : Bool := t.kind == .operator && t.value == value

def isKeyword (t : Token) (value : String) : Bool := t.kind == .keyword && t.value == value

def isEof (t : Token) : Bool := t.kind == .eof

/-- What a token is to the reader of a script: neither its place nor the
comments around it. -/
def bare (t : Token) : Token := { kind := t.kind, value := t.value }

/-- The semicolon that a line break ends a statement with, in front of
`next`. -/
def semicolonBefore (next : Token) : Token :=
  { kind := .punctuation, value := ";", location := next.location.front, inserted := true }

def describe (t : Token) : String :=
  match t.kind with
  | .eof => "end of input"
  | .string => "string " ++ Text.escaped t.value
  | kind => kind.text ++ " '" ++ t.value ++ "'"

/-- The token for listings; a star marks a semicolon that was put in. -/
def listing (t : Token) : String :=
  t.kind.text ++ "(" ++ Text.escaped t.value ++ ")" ++ (if t.inserted then "*" else "")

theorem bare_eq_bare_iff {s t : Token} :
    s.bare = t.bare ↔ s.kind = t.kind ∧ s.value = t.value := by
  simp [bare]

end Token

def Token.isOpening (t : Token) : Bool :=
  t.isPunctuation "(" || t.isPunctuation "[" || t.isPunctuation "\x7b"

def Token.isClosing (t : Token) : Bool :=
  t.isPunctuation ")" || t.isPunctuation "]" || t.isPunctuation "\x7d"

def closingOf (opening : String) : String :=
  if opening == "(" then ")" else if opening == "[" then "]" else "\x7d"

end ScriptOutline
