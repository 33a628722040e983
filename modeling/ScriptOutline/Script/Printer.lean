import ScriptOutline.Script.Statement

/-!
Scripts as text again, one statement a line.

Printing has two steps.  A node becomes pieces, each a single token, a comment
or white space, and only the second step decides what the pieces look like.
Reading the pieces as tokens is then a matter of lists, and the indentation is
a matter of the second step alone.
-/

namespace ScriptOutline

inductive Piece where
  | word (spelling : String)
  | space
  | newline
  | indent (level : Nat)
  | comment (comment : Comment)
deriving DecidableEq, Repr

structure PrintOptions where
  /-- Whether the comments before statements are printed. -/
  comments : Bool := true
  /-- One level of indentation. -/
  indent : String := "    "
deriving DecidableEq, Repr

namespace Piece

def text (indentation : String) : Piece → String
  | word spelling => spelling
  | space => " "
  | newline => "\n"
  | indent level => String.join (List.replicate level indentation)
  | comment c =>
    match c.kind with
    | .line => "//" ++ c.text
    | .block => "/*" ++ c.text ++ "*/"

def render (indentation : String) (pieces : List Piece) : String :=
  String.join (pieces.map (text indentation))

end Piece

namespace Printer

open Piece

/-- How a token is written.  A string is written in double quotation marks,
however it was written before. -/
def spelling (t : Token) : String :=
  if t.kind == .string then Text.quoted t.value else t.value

def needsSpace (last next : Token) : Bool :=
  if last.isPunctuation "(" || last.isPunctuation "[" || last.isPunctuation "." then false
  else if next.isPunctuation ")" || next.isPunctuation "]" || next.isPunctuation "," ||
      next.isPunctuation ";" || next.isPunctuation ":" then false
  else if next.isPunctuation "." then last.kind == .number
  else if next.isPunctuation "(" || next.isPunctuation "[" then
    !(last.kind == .name || last.isPunctuation ")" || last.isPunctuation "]")
  else if last.isOperator "!" || last.isOperator "~" then next.kind == .operator
  else true

mutual
/-- The tokens of a tree, each with the number of braces around it. -/
def leveled (depth : Nat) : TokenTree → List (Nat × Token)
  | .leaf t => [(depth, t)]
  | .group opener trees closer =>
    (depth, opener) ::
      (leveledAll (if opener.isPunctuation "\x7b" then depth + 1 else depth) trees ++
        [(depth, closer)])

def leveledAll (depth : Nat) : List TokenTree → List (Nat × Token)
  | [] => []
  | tree :: trees => leveled depth tree ++ leveledAll depth trees
end

/-- What stands between two tokens.  A line break stays where it was, since
statements may end there. -/
def gap (level : Nat) (last : Token) (next : Nat × Token) : List Piece :=
  if next.2.lineBreak then [newline, indent (level + next.1)]
  else if needsSpace last next.2 then [space]
  else []

def tokensAfter (level : Nat) (last : Token) : List (Nat × Token) → List Piece
  | [] => []
  | t :: ts => gap level last t ++ word (spelling t.2) :: tokensAfter level t.2 ts

/-- Tokens from the first on, which nothing divides from what stands before. -/
def tokens (level : Nat) : List (Nat × Token) → List Piece
  | [] => []
  | t :: ts => word (spelling t.2) :: tokensAfter level t.2 ts

def trees (level : Nat) (ts : List TokenTree) : List Piece := tokens level (leveledAll 0 ts)

def construct (level : Nat) (keyword : Token) (ts : List TokenTree) : List Piece :=
  tokens level ((0, keyword) :: leveledAll 0 ts)

/-- The tail of a value, which a space divides from it unless a point does. -/
def tail (level : Nat) : Option (List TokenTree) → List Piece
  | none => []
  | some [] => []
  | some (first :: rest) =>
    (if first.first.isPunctuation "." then [] else [space]) ++ trees level (first :: rest)

def segment (t : Token) : List Piece :=
  if t.kind == .string then [word "[", word (Text.quoted t.value), word "]"]
  else [word ".", word t.value]

def path (p : SymbolPath) : List Piece :=
  (if p.root.kind == .string then segment p.root else [word p.root.value]) ++
    p.properties.flatMap segment

/-- A path that was not known is written as one that will not be known. -/
def unknownPath : List Piece := [word "__unresolved__", word "[", word "0", word "]"]

def pathOrUnknown : Option SymbolPath → List Piece
  | some p => path p
  | none => unknownPath

def commaList : List (List Piece) → List Piece
  | [] => []
  | [item] => item
  | item :: items => item ++ word "," :: space :: commaList items

def functionHead (head : FunctionHead) : List Piece :=
  [word "function", space] ++
    (match head.name with
     | .named t => [word t.value]
     | .anonymous _ => []) ++
    word "(" :: commaList (head.parameters.map fun t => [word t.value]) ++ [word ")", space]

def isHole : Node → Bool
  | .expression _ [] => true
  | _ => false

/-- An array that ends with a hole needs a comma behind it. -/
def lastComma (elements : List Node) : List Piece :=
  match elements.getLast? with
  | some n => if isHole n then [word ","] else []
  | none => []

/-! ## Nodes -/

/-- Whether an assignment gives the name just declared its value. -/
def initializes (name : Token) (target : SymbolPath) (operator : String) : Bool :=
  operator == "=" && target.single? == some name.value

/-- Whether a declaration with this value reads as a function declaration. -/
def declaresFunction (word : DeclarationWord) (name : Token) (head : FunctionHead) : Bool :=
  word == .varWord &&
    (match head.name with
     | .named own => own.value == name.value
     | .anonymous _ => false)

def leading (o : PrintOptions) (level : Nat) (comments : List Comment) : List Piece :=
  if o.comments then comments.flatMap fun c => [indent level, comment c, newline] else []

def braced (level : Nat) (inner : List Piece) : List Piece :=
  if inner.isEmpty then [word "\x7b", word "\x7d"]
  else word "\x7b" :: newline :: inner ++ [indent level, word "\x7d"]

/-- A node as a statement; `inner` are its pieces as an expression.  A function
that stands alone is bracketed, or it would read as a declaration. -/
def statement (n : Node) (inner : List Piece) : List Piece :=
  match n with
  | .block .. | .skipped .. => inner
  | .declaration _ w _ => word w.text :: space :: inner ++ [word ";"]
  | .function .. => word "(" :: inner ++ [word ")", word ";"]
  | _ => inner ++ [word ";"]

/-- A declaration with its value, whose pieces are `inner`.  A function of that
name is declared as such. -/
def initialized (w : DeclarationWord) (name : Token) (value : Node) (inner : List Piece) :
    List Piece :=
  let plain := [word w.text, space, word name.value, space, word "=", space] ++ inner ++ [word ";"]
  match value with
  | .function _ head _ => if declaresFunction w name head then inner else plain
  | _ => plain

def line (o : PrintOptions) (level : Nat) (comments : List Comment) (inner : List Piece) :
    List Piece :=
  leading o level comments ++ indent level :: inner ++ [newline]

def assigned (target : SymbolPath) (operator : String) (inner : List Piece) : List Piece :=
  path target ++ space :: word operator :: space :: inner

mutual
/-- Statements, each on a line of its own.  A declaration and the assignment of
its value are one statement. -/
def statements (o : PrintOptions) (level : Nat) : List Node → List Piece
  | [] => []
  | .declaration c w name :: .assignment c' target operator value :: rest =>
    let inner := expression o level value
    (if initializes name target operator then line o level c (initialized w name value inner)
     else
       line o level c [word w.text, space, word name.value, word ";"] ++
         line o level c' (assigned target operator inner ++ [word ";"])) ++
      statements o level rest
  | n :: rest =>
    line o level n.comments (statement n (expression o level n)) ++ statements o level rest

def expression (o : PrintOptions) (level : Nat) : Node → List Piece
  | .block _ body => braced level (statements o (level + 1) body)
  | .declaration _ _ name => [word name.value]
  | .assignment _ target operator value =>
    assigned target operator (expression o level value)
  | .function _ head body => functionHead head ++ braced level (statements o (level + 1) body)
  | .returnNothing _ => [word "return"]
  | .returnValue _ value => word "return" :: space :: expression o level value
  | .call _ callee arguments =>
    path callee ++ word "(" :: commaList (expressions o level arguments) ++ [word ")"]
  | .reference _ p t => pathOrUnknown p ++ tail level t
  | .invocation _ p arguments chain t =>
    pathOrUnknown p ++ word "(" :: commaList (expressions o level arguments) ++ [word ")"] ++
      (expressions o level chain).flatMap (word "." :: ·) ++ tail level t
  | .instantiation _ value => word "new" :: space :: expression o level value
  | .array _ elements =>
    word "[" :: commaList (expressions o level elements) ++ lastComma elements ++ [word "]"]
  | .object _ ts => trees level ts
  | .primitive _ kind t => [word (if kind == .string then Text.quoted t.value else t.value)]
  | .expression _ ts => trees level ts
  | .immediate _ head body arguments =>
    word "(" :: functionHead head ++ braced level (statements o (level + 1) body) ++
      [word ")", word "("] ++ commaList (expressions o level arguments) ++ [word ")"]
  | .skipped _ keyword ts => construct level keyword ts

def expressions (o : PrintOptions) (level : Nat) : List Node → List (List Piece)
  | [] => []
  | n :: ns => expression o level n :: expressions o level ns
end

end Printer

namespace Node

def printAll (o : PrintOptions) (body : List Node) : String :=
  Piece.render o.indent (Printer.statements o 0 body)

end Node

def Script.print (o : PrintOptions) (s : Script) : String := Node.printAll o s.body

end ScriptOutline
