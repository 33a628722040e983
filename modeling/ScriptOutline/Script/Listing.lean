import ScriptOutline.Script.Node

/-!
Nodes written out in full, an item a line.
-/

namespace ScriptOutline

inductive Listing where
  | atom (text : String)
  | labelled (label : String) (value : Listing)
  | items (opening : String) (parts : List Listing) (closing : String)
deriving Repr

namespace Listing

def indentation (level : Nat) : String := String.join (List.replicate level "    ")

mutual
/-- Each item stands on a line of its own with a comma behind it; where there
is none, the opening and the closing text meet. -/
def render (level : Nat) : Listing → String
  | atom text => text
  | labelled label value => label ++ ": " ++ render level value
  | items opening [] closing => opening ++ closing
  | items opening (part :: parts) closing =>
    opening ++ "\n" ++ renderAll (level + 1) (part :: parts) ++ indentation level ++ closing

def renderAll (level : Nat) : List Listing → String
  | [] => ""
  | part :: parts => indentation level ++ render level part ++ ",\n" ++ renderAll level parts
end

def sequence (parts : List Listing) : Listing := items "[" parts "]"

def wrapped (name : String) (part : Listing) : Listing := items (name ++ "(") [part] ")"

def record (name : String) (fields : List (String × Listing)) : Listing :=
  items (name ++ " \x7b") (fields.map fun f => labelled f.1 f.2) "\x7d"

def optional : Option Listing → Listing
  | some part => wrapped "Some" part
  | none => atom "None"

def token (t : Token) : Listing := atom t.listing

mutual
def tree : TokenTree → Listing
  | .leaf t => token t
  | .group opener trees closer => items (opener.value ++ "[") (treeParts trees) ("]" ++ closer.value)

def treeParts : List TokenTree → List Listing
  | [] => []
  | t :: ts => tree t :: treeParts ts
end

def trees (ts : List TokenTree) : Listing := sequence (treeParts ts)

def path (p : SymbolPath) : Listing := sequence (p.names.map fun n => atom (Text.escaped n))

def function (head : FunctionHead) (body : Listing) : Listing :=
  record "Function"
    [("name", atom head.name.text), ("parameters", sequence (head.parameters.map token)),
     ("body", body)]

def declarationWord : DeclarationWord → Listing
  | .varWord => atom "Var"
  | .letWord => atom "Let"

mutual
def node : Node → Listing
  | .block _ body => wrapped "Block" (sequence (nodes body))
  | .declaration _ word name =>
    record "VarDecl" [("scope", declarationWord word), ("name", token name)]
  | .assignment _ target operator value =>
    record "Assign"
      [("target", path target), ("operator", atom (Text.escaped operator)), ("value", node value)]
  | .function _ head body => wrapped "FunctionLiteral" (function head (sequence (nodes body)))
  | .returnNothing _ => wrapped "Return" (atom "None")
  | .returnValue _ value => wrapped "Return" (wrapped "Some" (node value))
  | .call _ callee arguments =>
    record "Call" [("callee", path callee), ("arguments", sequence (nodes arguments))]
  | .reference _ p tail =>
    record "Reference" [("path", optional (p.map path)), ("incomplete", optional (tail.map trees))]
  | .invocation _ p arguments chain tail =>
    record "CallReference"
      [("path", optional (p.map path)), ("arguments", sequence (nodes arguments)),
       ("chain", sequence (nodes chain)), ("incomplete", optional (tail.map trees))]
  | .instantiation _ value => wrapped "Instance" (node value)
  | .array _ elements => wrapped "ArrayLiteral" (sequence (nodes elements))
  | .object _ ts => wrapped "ObjectLiteral" (trees ts)
  | .primitive _ kind t => record "Primitive" [("kind", atom kind.text), ("token", token t)]
  | .expression _ ts => wrapped "Expression" (trees ts)
  | .immediate _ head body arguments =>
    record "Iife"
      [("function", function head (sequence (nodes body))),
       ("arguments", sequence (nodes arguments))]
  | .skipped _ keyword ts => record "Skipped" [("keyword", token keyword), ("trees", trees ts)]

def nodes : List Node → List Listing
  | [] => []
  | n :: ns => node n :: nodes ns
end

end Listing

def Node.listAll (body : List Node) : String :=
  Listing.render 0 (Listing.sequence (Listing.nodes body))

end ScriptOutline
