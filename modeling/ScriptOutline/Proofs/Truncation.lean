/-
A script that breaks off is reported as one that breaks off.

The tokens of a script and the first few of them are two sources that correspond until
the second one ends.  If the whole script can be read, then what the readers of the first
few tokens do not share with those of all of them is what they meet at the end.
-/
import ScriptOutline.Proofs.AbreastScript

namespace ScriptOutline

namespace Pairing

/-- A token corresponds to itself, until the second source ends with `u`. -/
def truncated (u : Token) (heof : u.isEof = true) (hline : u.lineBreak = false) : Pairing where
  raw s t := s = t
  lexical d e := d = e
  stop t := t = u
  signs_eq h := congrArg Token.signs h
  eof_of_stop h := h ▸ heof
  same_line h := h ▸ hline

theorem feeds_truncated (shorter rest : List Token) :
    (truncated (TokenFeed.endOf shorter) rfl rfl).Feeds (rest.map .ok)
      (.ofTokens (shorter ++ rest)) (.ofTokens shorter) where
  items := by
    refine ⟨shorter.map .ok, List.map_append, ?_⟩
    refine List.forall₂_same.2 fun item hitem => ?_
    obtain ⟨t, -, rfl⟩ := List.mem_map.1 hitem
    exact rfl
  final := .inr ⟨_, TokenFeed.final_ofTokens shorter, rfl⟩

end Pairing

namespace Script

/-- Where the tokens of a script can be read, any number of them from the start can be read
too, or end too soon, or are nested too deep. -/
theorem ofTokens_of_prefix {tokens shorter : List Token} (hbegins : shorter <+: tokens)
    (h : (ofTokens tokens).isOk = true) :
    (ofTokens shorter).isOk = true ∨
      ofTokens shorter = .error (.endOfInput (TokenFeed.endOf shorter)) ∨
      ∃ location, ofTokens shorter = .error { fault := .nestingTooDeep, location } := by
  obtain ⟨rest, rfl⟩ := hbegins
  have hruns := ofFeed_abreast (Pairing.feeds_truncated shorter rest)
  cases hs : ofTokens shorter with
  | ok s => exact .inl rfl
  | error e =>
    rw [show ofFeed (.ofTokens shorter) = .error e from hs] at hruns
    rcases hruns with ⟨d, hd, -⟩ | ⟨t, rfl, rfl | hdeep⟩
    · rw [show ofTokens (shorter ++ rest) = .error d from hd] at h
      cases h
    · exact .inr (.inl rfl)
    · refine .inr (.inr ⟨e.location, ?_⟩)
      rw [← hdeep]

/-- A call that breaks off behind its opening bracket. -/
theorem ofTokens_of_prefix_call :
    let name : Token := { kind := .name, value := "f", location := { span := { length := 1 } } }
    let opening : Token :=
      { kind := .punctuation, value := "(",
        location := { span := { start := 1, length := 1 }, position := { column := 1 } } }
    let closing : Token :=
      { kind := .punctuation, value := ")",
        location := { span := { start := 2, length := 1 }, position := { column := 2 } } }
    let ending : Token :=
      { kind := .eof, location := { span := { start := 2 }, position := { column := 1 } } }
    (ofTokens [name, opening, closing]).isOk = true ∧ (ofTokens [name, opening]).isOk = false ∧
      (ofTokens [name, opening] = .error (.endOfInput ending) ∨
        ∃ location, ofTokens [name, opening] = .error { fault := .nestingTooDeep, location }) := by
  intro name opening closing ending
  have hwhole : (ofTokens [name, opening, closing]).isOk = true := by decide +kernel
  have hbroken : (ofTokens [name, opening]).isOk = false := by decide +kernel
  refine ⟨hwhole, hbroken, ?_⟩
  have hbegins : [name, opening] <+: [name, opening, closing] := ⟨[closing], rfl⟩
  rcases ofTokens_of_prefix hbegins hwhole with hread | hrest
  · rw [hbroken] at hread
    cases hread
  · exact hrest

end Script

end ScriptOutline
