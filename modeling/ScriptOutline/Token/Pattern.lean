import ScriptOutline.Token.Basic

/-!
What a reader asks of a token.
-/

namespace ScriptOutline

/-- A kind of token, a spelling of that kind, or a choice of spellings. -/
inductive TokenPattern where
  | anyOf (kind : TokenKind)
  | exactly (kind : TokenKind) (value : String)
  | oneOf (kind : TokenKind) (values : List String)
deriving DecidableEq, Repr

namespace TokenPattern

def accepts : TokenPattern → Token → Bool
  | anyOf kind, t => t.kind == kind
  | exactly kind value, t => t.kind == kind && t.value == value
  | oneOf kind values, t => t.kind == kind && values.contains t.value

def describe : TokenPattern → String
  | anyOf kind => kind.text
  | exactly kind value => kind.text ++ " '" ++ value ++ "'"
  | oneOf kind values =>
    kind.text ++ " " ++ " or ".intercalate (values.map fun v => "'" ++ v ++ "'")

/-- A pattern asks for nothing but kind and value. -/
theorem accepts_congr {s t : Token} (h : s.bare = t.bare) (p : TokenPattern) :
    p.accepts s = p.accepts t := by
  obtain ⟨hk, hv⟩ := Token.bare_eq_bare_iff.1 h
  cases p <;> simp [accepts, hk, hv]

def punctuation (value : String) : TokenPattern := exactly .punctuation value

def opening : TokenPattern := oneOf .punctuation ["(", "[", "\x7b"]

end TokenPattern

end ScriptOutline
