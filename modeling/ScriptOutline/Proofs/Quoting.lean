/-
A quoted string scans as one string token.

Every character is written so that it stays inside the literal and denotes itself, whatever stands
around it, but for a zero character before a digit: there its escape would be the beginning of
an octal one, which is none here, so that its letter stands for itself.

Of any other string, whoever wrote it, the scan gives what decoding from the first character on
gives (`Lexer.next_at_mark`).
-/
import ScriptOutline.Proofs.Scanning

namespace ScriptOutline

open Text

namespace Lexer

variable {l : Lexer}

def quotedAt (c : Cursor) (value : String) : Token :=
  { kind := .string, value := String.ofList (Literal.rereadAll value.toList)
    location := c.locate (c.move (quoted value).toList.length) }

theorem next_of_quoted [IdentifierTable] {value : String} {rest : List Char}
    (h : l.cursor.rest = (quoted value).toList ++ rest) :
    l.next = (.ok (quotedAt l.cursor value),
      { cursor := l.cursor.move (quoted value).toList.length, regexpAllowed := false }) := by
  have hgap : Gap.read l.cursor = { cursor := l.cursor } := by
    refine Gap.read_of_startsToken ?_
    rw [h, quoted, String.toList_ofList, Quoted.characters]
    exact startsToken_cons (by decide) (by decide) _
  have hcut := Cut.read_string l.regexpAllowed value rest
  rw [← h] at hcut
  simp only [next, hgap, hcut, Bool.false_eq_true, if_false, quotedAt]
  rfl

theorem next_of_nil [IdentifierTable] (h : l.cursor.rest = []) :
    l.next.1 = .ok { kind := .eof, location := l.cursor.locate l.cursor } := by
  have hgap : Gap.read l.cursor = { cursor := l.cursor } :=
    Gap.read_of_startsToken (by rw [h]; rfl)
  simp only [next, hgap, h, Cut.read]
  rfl

end Lexer

theorem Lexer.start_quoted (value : String) :
    ofText (quoted value) = { cursor := .ofText (quoted value) } := by
  rw [ofText, Cursor.ofText, quoted, String.toList_ofList, Quoted.characters]
  rfl

theorem Literal.ofList_rereadAll_eq_iff {value : String} :
    String.ofList (rereadAll value.toList) = value ↔
      ∀ d, isDigit d = true → ¬ ['\x00', d] <:+: value.toList := by
  rw [← rereadAll_eq_self_iff, ← String.toList_inj, String.toList_ofList]

/-- The literal for `value` is scanned as one string that takes the whole text, and it denotes
`value` if and only if no zero character in it stands before a digit. -/
theorem Scan.ofText_quoted [IdentifierTable] (value : String) :
    ∃ t eof : Token, Scan.ofText (quoted value) = { tokens := [t, eof] } ∧
      t.kind = .string ∧
      t.location = { span := .between 0 (byteLength (quoted value).toList) } ∧
      eof.isEof = true ∧ eof.location.span = .empty (byteLength (quoted value).toList) ∧
      (t.value = value ↔ ∀ d, isDigit d = true → ¬ ['\x00', d] <:+: value.toList) := by
  have hlexer := Lexer.start_quoted value
  generalize hstart : Cursor.ofText (quoted value) = start at hlexer
  have hrest : start.rest = (quoted value).toList ++ [] := by
    rw [← hstart, List.append_nil]
    rfl
  have hoffset : (start.move (quoted value).toList.length).offset =
      byteLength (quoted value).toList := by
    rw [Cursor.offset_move_length hrest, ← hstart]
    exact Nat.zero_add _
  have hnext := @Lexer.next_of_quoted { cursor := start } _ value [] hrest
  generalize hlater : start.move (quoted value).toList.length = later at hoffset hnext
  have hend : later.rest = [] := hlater ▸ Cursor.rest_move_length hrest
  refine ⟨Lexer.quotedAt start value, { kind := .eof, location := later.locate later },
    Lexer.Scans.ofItems ?_, rfl, ?_, rfl, ?_, Literal.ofList_rereadAll_eq_iff⟩
  · rw [hlexer]
    refine .token (congrArg Prod.fst hnext) rfl (.eof ?_ rfl)
    rw [hnext]
    exact Lexer.next_of_nil hend
  · rw [Lexer.quotedAt, hlater, Cursor.locate, hoffset, ← hstart]
    rfl
  · simp [Cursor.locate, Span.between, Span.empty, hoffset]

example : (Scan.ofText (quoted "\x00a\x001")).tokens.map (·.value) = ["\x00a01", ""] := by
  decide +kernel

/-- Wherever a quotation mark stands in a text, the scan gives what decoding from the first
character on gives: the value of a string that is closed, or the same stretch of an open one. -/
theorem Lexer.next_at_mark [IdentifierTable] {text : String} {before body : List Char} {mark : Char}
    (htext : text.toList = before ++ mark :: body) (hmark : mark = '\x27' ∨ mark = '\x22')
    (allowed : Bool) :
    let quote := (Cursor.ofText text).move before.length
    let decoded := Literal.stringBody mark body
    let after := quote.move (1 + decoded.length)
    ({ cursor := quote, regexpAllowed := allowed } : Lexer).next =
      if decoded.closed then
        (.ok { kind := .string, value := String.ofList decoded.value
               location := quote.locate after },
          { cursor := after, regexpAllowed := false })
      else
        (.error { fault := .unterminatedString, location := quote.locate after },
          { cursor := after, regexpAllowed := allowed }) := by
  intro quote decoded after
  have hrest : quote.rest = mark :: body := Cursor.rest_move_length (c := .ofText text) htext
  have hquotes : (mark == '\x27' || mark == '\x22') = true := by simpa using hmark
  have hgap : Gap.read quote = { cursor := quote } := by
    refine Gap.read_of_startsToken ?_
    rw [hrest]
    rcases hmark with rfl | rfl
    · exact startsToken_cons (by decide) (by decide) _
    · exact startsToken_cons (by decide) (by decide) _
  simp only [next, hgap, hrest, Cut.read_mark hquotes, Cut.string_eq, Bool.false_eq_true, if_false]
  show _ = if (Literal.stringBody mark body).closed then _ else _
  cases (Literal.stringBody mark body).closed with
  | true => rfl
  | false => rfl

/-- A plain stretch, an escape, a malformed one and a continued line. -/
theorem Lexer.next_at_mark_mixed :
    "='é\\x41\\xq\\\r\nz'".toList = "=".toList ++ '\x27' :: "é\\x41\\xq\\\r\nz'".toList ∧
      ('\x27' = '\x27' ∨ '\x27' = '\x22') ∧
      (next { cursor := (Cursor.ofText "='é\\x41\\xq\\\r\nz'").move 1 }).1 =
        .ok { kind := .string, value := "éAxqz"
              location := { span := .between 1 16, position := { column := 1 } } } := by
  have htext : "='é\\x41\\xq\\\r\nz'".toList =
      "=".toList ++ '\x27' :: "é\\x41\\xq\\\r\nz'".toList := by decide
  have hnext := next_at_mark htext (.inl rfl) true
  refine ⟨htext, .inl rfl, (congrArg Prod.fst hnext).trans ?_⟩
  decide +kernel

end ScriptOutline
