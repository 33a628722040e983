import ScriptOutline.Token.Basic
import ScriptOutline.Text.Quoted

/-!
Tokens that are kept without being understood, with their brackets matched,
and paths of property names.
-/

namespace ScriptOutline

inductive TokenTree where
  | leaf (token : Token)
  | group (opener : Token) (trees : List TokenTree) (closer : Token)
deriving Repr, Inhabited

namespace TokenTree

def first : TokenTree → Token
  | leaf t => t
  | group opener _ _ => opener

mutual
/-- The tokens in reading order, brackets included. -/
def tokens : TokenTree → List Token
  | leaf t => [t]
  | group opener trees closer => opener :: (tokensOf trees ++ [closer])

def tokensOf : List TokenTree → List Token
  | [] => []
  | tree :: trees => tokens tree ++ tokensOf trees
end

def size (tree : TokenTree) : Nat := tree.tokens.length

mutual
def depth : TokenTree → Nat
  | leaf _ => 0
  | group _ trees _ => depthOf trees + 1

def depthOf : List TokenTree → Nat
  | [] => 0
  | tree :: trees => max (depth tree) (depthOf trees)
end

mutual
def bare : TokenTree → TokenTree
  | leaf t => leaf t.bare
  | group opener trees closer => group opener.bare (bareAll trees) closer.bare

def bareAll : List TokenTree → List TokenTree
  | [] => []
  | tree :: trees => bare tree :: bareAll trees
end

mutual
/-- Equal up to places and comments. -/
def alike : TokenTree → TokenTree → Bool
  | leaf s, leaf t => s.bare == t.bare
  | group o₁ t₁ c₁, group o₂ t₂ c₂ => o₁.bare == o₂.bare && alikeAll t₁ t₂ && c₁.bare == c₂.bare
  | _, _ => false

def alikeAll : List TokenTree → List TokenTree → Bool
  | [], [] => true
  | s :: ss, t :: ts => alike s t && alikeAll ss ts
  | _, _ => false
end

theorem tokensOf_append (ss ts : List TokenTree) :
    tokensOf (ss ++ ts) = tokensOf ss ++ tokensOf ts := by
  induction ss with
  | nil => rfl
  | cons s ss ih => simp [tokensOf, ih]

theorem depthOf_append (ss ts : List TokenTree) :
    depthOf (ss ++ ts) = max (depthOf ss) (depthOf ts) := by
  induction ss with
  | nil => simp [depthOf]
  | cons s ss ih => rw [List.cons_append, depthOf, depthOf, ih, Nat.max_assoc]

end TokenTree

/-- A property path such as `a.b["c"]`: the name it starts from, then the
properties.  A property in brackets is a string token. -/
structure SymbolPath where
  root : Token
  properties : List Token := []
deriving DecidableEq, Repr, Inhabited

namespace SymbolPath

def segments (p : SymbolPath) : List Token := p.root :: p.properties

def names (p : SymbolPath) : List String := p.segments.map (·.value)

/-- The name of a path that has no properties. -/
def single? (p : SymbolPath) : Option String :=
  if p.properties.isEmpty then some p.root.value else none

def segmentText (t : Token) : String :=
  if t.kind == .string then "[" ++ Text.quoted t.value ++ "]" else "." ++ t.value

def rootText (t : Token) : String :=
  if t.kind == .string then "[" ++ Text.quoted t.value ++ "]" else t.value

def text (p : SymbolPath) : String :=
  rootText p.root ++ String.join (p.properties.map segmentText)

def bare (p : SymbolPath) : SymbolPath :=
  { root := p.root.bare, properties := p.properties.map Token.bare }

end SymbolPath

end ScriptOutline
