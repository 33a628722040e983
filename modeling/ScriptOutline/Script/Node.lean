import ScriptOutline.Token.Tree

/-!
What a script says, as far as it is understood: declarations, assignments,
functions, calls and references.  Everything else is kept as token trees.
-/

namespace ScriptOutline

inductive DeclarationWord where
  | varWord
  | letWord
deriving DecidableEq, Repr

def DeclarationWord.text : DeclarationWord → String
  | varWord => "var"
  | letWord => "let"

inductive PrimitiveKind where
  | string
  | number
  | regexp
  | boolean
  | null
  | undefined
deriving DecidableEq, Repr

def PrimitiveKind.text : PrimitiveKind → String
  | string => "String"
  | number => "Number"
  | regexp => "RegExp"
  | boolean => "Boolean"
  | null => "Null"
  | undefined => "Undefined"

/-- The name of a function, or its number among the functions without one. -/
inductive FunctionName where
  | named (token : Token)
  | anonymous (number : Nat)
deriving DecidableEq, Repr

namespace FunctionName

def isAnonymous : FunctionName → Bool
  | named _ => false
  | anonymous _ => true

def text : FunctionName → String
  | named token => token.value
  | anonymous number => "*anon" ++ toString number

def bare : FunctionName → FunctionName
  | named token => named token.bare
  | anonymous number => anonymous number

end FunctionName

structure FunctionHead where
  name : FunctionName
  parameters : List Token := []
deriving DecidableEq, Repr

def FunctionHead.bare (h : FunctionHead) : FunctionHead :=
  { name := h.name.bare, parameters := h.parameters.map Token.bare }

/-- A statement or a value.  Each starts with the comments before it.

Only lists of nodes are nested, and a return with a value is a node apart from
one without, so that recursion has two cases to follow: a node and a list. -/
inductive Node where
  | block (comments : List Comment) (body : List Node)
  /-- One declared name; an assignment follows if the declaration has a value. -/
  | declaration (comments : List Comment) (word : DeclarationWord) (name : Token)
  | assignment (comments : List Comment) (target : SymbolPath) (operator : String) (value : Node)
  | function (comments : List Comment) (head : FunctionHead) (body : List Node)
  | returnNothing (comments : List Comment)
  | returnValue (comments : List Comment) (value : Node)
  /-- A call on what the link before it in a chain gives. -/
  | call (comments : List Comment) (callee : SymbolPath) (arguments : List Node)
  /-- A path, which is unknown if a key in brackets had to be computed.  The
  tail is what follows it in a larger expression. -/
  | reference (comments : List Comment) (path : Option SymbolPath) (tail : Option (List TokenTree))
  /-- A path that is called, with the links of the chain behind the call. -/
  | invocation (comments : List Comment) (path : Option SymbolPath) (arguments chain : List Node)
      (tail : Option (List TokenTree))
  | instantiation (comments : List Comment) (value : Node)
  | array (comments : List Comment) (elements : List Node)
  | object (comments : List Comment) (trees : List TokenTree)
  | primitive (comments : List Comment) (kind : PrimitiveKind) (token : Token)
  | expression (comments : List Comment) (trees : List TokenTree)
  /-- A function that is called where it stands. -/
  | immediate (comments : List Comment) (head : FunctionHead) (body arguments : List Node)
  /-- Control flow or a labelled statement, kept as it is. -/
  | skipped (comments : List Comment) (keyword : Token) (trees : List TokenTree)
deriving Repr, Inhabited

namespace Node

def comments : Node → List Comment
  | block c .. | declaration c .. | assignment c .. | function c .. | returnNothing c
  | returnValue c .. | call c .. | reference c .. | invocation c .. | instantiation c ..
  | array c .. | object c .. | primitive c .. | expression c .. | immediate c .. | skipped c .. => c

def withComments (c : List Comment) : Node → Node
  | block _ body => block c body
  | declaration _ word name => declaration c word name
  | assignment _ target operator value => assignment c target operator value
  | function _ head body => function c head body
  | returnNothing _ => returnNothing c
  | returnValue _ value => returnValue c value
  | call _ callee arguments => call c callee arguments
  | reference _ path tail => reference c path tail
  | invocation _ path arguments chain tail => invocation c path arguments chain tail
  | instantiation _ value => instantiation c value
  | array _ elements => array c elements
  | object _ trees => object c trees
  | primitive _ kind token => primitive c kind token
  | expression _ trees => expression c trees
  | immediate _ head body arguments => immediate c head body arguments
  | skipped _ keyword trees => skipped c keyword trees

@[simp] theorem comments_withComments (c : List Comment) (n : Node) :
    (n.withComments c).comments = c := by
  cases n <;> rfl

def kindName : Node → String
  | block .. => "Block"
  | declaration .. => "VarDecl"
  | assignment .. => "Assign"
  | function .. => "FunctionLiteral"
  | returnNothing .. | returnValue .. => "Return"
  | call .. => "Call"
  | reference .. => "Reference"
  | invocation .. => "CallReference"
  | instantiation .. => "Instance"
  | array .. => "ArrayLiteral"
  | object .. => "ObjectLiteral"
  | primitive .. => "Primitive"
  | expression .. => "Expression"
  | immediate .. => "Iife"
  | skipped .. => "Skipped"

mutual
def bare : Node → Node
  | block _ body => block [] (bareAll body)
  | declaration _ word name => declaration [] word name.bare
  | assignment _ target operator value => assignment [] target.bare operator (bare value)
  | function _ head body => function [] head.bare (bareAll body)
  | returnNothing _ => returnNothing []
  | returnValue _ value => returnValue [] (bare value)
  | call _ callee arguments => call [] callee.bare (bareAll arguments)
  | reference _ path tail => reference [] (path.map SymbolPath.bare) (tail.map TokenTree.bareAll)
  | invocation _ path arguments chain tail =>
    invocation [] (path.map SymbolPath.bare) (bareAll arguments) (bareAll chain)
      (tail.map TokenTree.bareAll)
  | instantiation _ value => instantiation [] (bare value)
  | array _ elements => array [] (bareAll elements)
  | object _ trees => object [] (TokenTree.bareAll trees)
  | primitive _ kind token => primitive [] kind token.bare
  | expression _ trees => expression [] (TokenTree.bareAll trees)
  | immediate _ head body arguments =>
    immediate [] head.bare (bareAll body) (bareAll arguments)
  | skipped _ keyword trees => skipped [] keyword.bare (TokenTree.bareAll trees)

def bareAll : List Node → List Node
  | [] => []
  | n :: ns => bare n :: bareAll ns
end

def tailsAlike : Option (List TokenTree) → Option (List TokenTree) → Bool
  | none, none => true
  | some s, some t => TokenTree.alikeAll s t
  | _, _ => false

mutual
/-- Whether two nodes say the same: tokens count by kind and value, comments
not at all. -/
def alike : Node → Node → Bool
  | block _ b₁, block _ b₂ => alikeAll b₁ b₂
  | declaration _ w₁ n₁, declaration _ w₂ n₂ => w₁ == w₂ && n₁.bare == n₂.bare
  | assignment _ t₁ o₁ v₁, assignment _ t₂ o₂ v₂ => t₁.bare == t₂.bare && o₁ == o₂ && alike v₁ v₂
  | function _ h₁ b₁, function _ h₂ b₂ => h₁.bare == h₂.bare && alikeAll b₁ b₂
  | returnNothing _, returnNothing _ => true
  | returnValue _ v₁, returnValue _ v₂ => alike v₁ v₂
  | call _ c₁ a₁, call _ c₂ a₂ => c₁.bare == c₂.bare && alikeAll a₁ a₂
  | reference _ p₁ t₁, reference _ p₂ t₂ =>
    p₁.map SymbolPath.bare == p₂.map SymbolPath.bare && tailsAlike t₁ t₂
  | invocation _ p₁ a₁ c₁ t₁, invocation _ p₂ a₂ c₂ t₂ =>
    p₁.map SymbolPath.bare == p₂.map SymbolPath.bare && alikeAll a₁ a₂ && alikeAll c₁ c₂ &&
      tailsAlike t₁ t₂
  | instantiation _ v₁, instantiation _ v₂ => alike v₁ v₂
  | array _ e₁, array _ e₂ => alikeAll e₁ e₂
  | object _ t₁, object _ t₂ => TokenTree.alikeAll t₁ t₂
  | primitive _ k₁ t₁, primitive _ k₂ t₂ => k₁ == k₂ && t₁.bare == t₂.bare
  | expression _ t₁, expression _ t₂ => TokenTree.alikeAll t₁ t₂
  | immediate _ h₁ b₁ a₁, immediate _ h₂ b₂ a₂ =>
    h₁.bare == h₂.bare && alikeAll b₁ b₂ && alikeAll a₁ a₂
  | skipped _ k₁ t₁, skipped _ k₂ t₂ => k₁.bare == k₂.bare && TokenTree.alikeAll t₁ t₂
  | _, _ => false

def alikeAll : List Node → List Node → Bool
  | [], [] => true
  | m :: ms, n :: ns => alike m n && alikeAll ms ns
  | _, _ => false
end

end Node

end ScriptOutline
