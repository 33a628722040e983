/-
Which line breaks end the lines of a text does not matter.

A text is scanned beside the text with other line endings.  `Cursor.Relined` relates
places on the same line and column, and every gap, token and fault leads from related
places to related ones.  The tokens differ in nothing that a reader looks at, so the
scripts say the same.
-/
import ScriptOutline.Proofs.Agreement
import ScriptOutline.Proofs.Reline
import ScriptOutline.Proofs.Gaps

namespace ScriptOutline

open Text

variable {x : LineEnding}

namespace Cursor

/-- The place in the relined text: on the same line, and as far from its start. -/
structure Relined (x : LineEnding) (c d : Cursor) : Prop where
  rest : d.rest = x.reline c.rest
  position : d.position = c.position
  plain : '\r' ∉ c.rest

theorem rest_ofText (text : String) : (ofText text).rest = text.toList := rfl

theorem position_step {c : Cursor} {ch : Char} {rest : List Char} (h : c.rest = ch :: rest) :
    c.step.position =
      if endsLine ch rest.head? then { line := c.position.line + 1 }
      else { c.position with column := c.position.column + 1 } := by
  simp [step, h]

theorem endsLine_of_ne {ch : Char} (h : ch ≠ '\r') (next : Option Char) :
    endsLine ch next = isLineBreak ch := by
  simp [endsLine, h]

theorem move_of_nil {c : Cursor} (h : c.rest = []) (n : Nat) : c.move n = c := by
  have hstep : c.step = c := by simp [step, h]
  induction n with
  | zero => rfl
  | succ n ih => rw [move, hstep, ih]

namespace Relined

variable {c d : Cursor} {ch : Char} {rest : List Char}

theorem step (h : Relined x c d) (hrest : c.rest = ch :: rest) (hch : ch ≠ '\n') :
    Relined x c.step d.step := by
  have hd : d.rest = ch :: x.reline rest := by rw [h.rest, hrest, x.reline_cons hch]
  have hplain := h.plain
  rw [hrest, List.mem_cons, not_or] at hplain
  have hr : ch ≠ '\r' := Ne.symm hplain.1
  refine ⟨?_, ?_, ?_⟩
  · rw [rest_step, rest_step, hd, hrest, List.tail_cons, List.tail_cons]
  · rw [position_step hd, position_step hrest, endsLine_of_ne hr, endsLine_of_ne hr, h.position]
  · rw [rest_step, hrest]
    exact hplain.2

/-- A line ending takes its one or two characters and ends the line once. -/
theorem newline (h : Relined x c d) (hrest : c.rest = '\n' :: rest) :
    Relined x c.step (d.move x.chars.length) := by
  have hd : d.rest = x.chars ++ x.reline rest := by rw [h.rest, hrest, x.reline_newline]
  have hplain := h.plain
  rw [hrest, List.mem_cons, not_or] at hplain
  have hline : c.step.position = { line := c.position.line + 1 } := by
    rw [position_step hrest, endsLine_of_ne (by decide)]
    rfl
  refine ⟨?_, ?_, ?_⟩
  · rw [rest_move, hd, List.drop_left, rest_step, hrest, List.tail_cons]
  · rw [hline]
    rcases x.chars_cases with hx | ⟨e, hx, he, -⟩
    · have hfirst : d.rest = '\r' :: '\n' :: x.reline rest := by rw [hd, hx]; rfl
      have hsecond : d.step.rest = '\n' :: x.reline rest := by rw [rest_step, hfirst]; rfl
      have hreturn : d.step.position = { c.position with column := c.position.column + 1 } := by
        rw [position_step hfirst, h.position]
        rfl
      rw [hx]
      show d.step.step.position = _
      rw [position_step hsecond, endsLine_of_ne (by decide), hreturn]
      rfl
    · have hends : endsLine e (x.reline rest).head? = true := by
        have hnext := x.head?_reline_ne rest
        simp [endsLine, he, hnext]
      have hfirst : d.rest = e :: x.reline rest := by rw [hd, hx]; rfl
      rw [hx]
      show d.step.position = _
      rw [position_step hfirst, hends, h.position]
      rfl
  · rw [rest_step, hrest]
    exact hplain.2

/-- Past the first characters here, and past what became of them there. -/
theorem move (h : Relined x c d) (n : Nat) :
    Relined x (c.move n) (d.move (x.spread c.rest n)) := by
  induction n generalizing c d with
  | zero => exact h
  | succ n ih =>
    cases hrest : c.rest with
    | nil =>
      rw [move_of_nil hrest, move_of_nil (by rw [h.rest, hrest]; rfl)]
      exact h
    | cons ch rest =>
      have hnext : c.step.rest = rest := by rw [rest_step, hrest, List.tail_cons]
      by_cases hch : ch = '\n'
      · subst hch
        have hmoved := ih (h.newline hrest)
        rw [hnext] at hmoved
        rw [x.spread_newline, move_add d]
        exact hmoved
      · have hmoved := ih (h.step hrest hch)
        rw [hnext] at hmoved
        rw [x.spread_cons hch]
        exact hmoved

theorem move_eq {n m : Nat} (h : Relined x c d) (hm : m = x.spread c.rest n) :
    Relined x (c.move n) (d.move m) := hm ▸ h.move n

end Relined
end Cursor

structure Comment.Relined (x : LineEnding) (a b : Comment) : Prop where
  kind : b.kind = a.kind
  text : b.text = x.relineText a.text
  position : b.location.position = a.location.position

structure Gap.Relined (x : LineEnding) (g h : Gap) : Prop where
  cursor : g.cursor.Relined x h.cursor
  comments : List.Forall₂ (Comment.Relined x) g.comments h.comments
  lineBreak : h.lineBreak = g.lineBreak
  unclosed : h.unclosed = g.unclosed

namespace Gap

/-- A gap that begins with a line ending goes on behind it. -/
theorem read_chars {d : Cursor} {rest : List Char} (h : d.rest = x.chars ++ rest) :
    read d = { read (d.move x.chars.length) with lineBreak := true } := by
  rcases x.chars_cases with hx | ⟨e, hx, he, -⟩
  · have hfirst : d.rest = '\r' :: '\n' :: rest := by rw [h, hx]; rfl
    have hsecond : d.step.rest = '\n' :: rest := by rw [Cursor.rest_step, hfirst]; rfl
    rw [hx, read_lineBreak hfirst rfl, read_lineBreak hsecond rfl]
    rfl
  · have hfirst : d.rest = e :: rest := by rw [h, hx]; rfl
    rw [hx, read_lineBreak hfirst he]
    rfl

theorem Relined.withComment {g h : Gap} (hgh : g.Relined x h) {a b : Comment}
    (hab : a.Relined x b) (lineBreak : Bool) :
    (g.withComment a lineBreak).Relined x (h.withComment b lineBreak) where
  cursor := hgh.cursor
  comments := .cons hab hgh.comments
  lineBreak := congrArg (lineBreak || ·) hgh.lineBreak
  unclosed := hgh.unclosed

/-- A line comment is the same in front of any line ending. -/
theorem read_relined_line {d : Cursor} {body : List Char}
    (h : d.rest = x.reline ('/' :: '/' :: body)) :
    read d = (read (d.move (2 + (firstLine body).length))).withComment
      { kind := .line, text := String.ofList (firstLine body)
        location := d.locate (d.move (2 + (firstLine body).length)) } false := by
  obtain ⟨rest, hbody, hends⟩ := eq_firstLine_append (x.reline body)
  rw [x.firstLine_reline] at hbody
  rw [x.reline_cons (by decide), x.reline_cons (by decide), hbody] at h
  exact read_line h (fun _ => isLineBreak_of_mem_firstLine) hends

theorem read_relined_block {d : Cursor} {body text rest : List Char}
    (h : d.rest = x.reline ('/' :: '*' :: body)) (hc : closeComment? body = some (text, rest)) :
    read d = (read (d.move (4 + (x.reline text).length))).withComment
      { kind := .block, text := String.ofList (x.reline text)
        location := d.locate (d.move (4 + (x.reline text).length)) } (text.any isLineBreak) := by
  have hclose : closeComment? (x.reline body) = some (x.reline text, x.reline rest) := by
    rw [x.closeComment?_reline, hc]
    rfl
  rw [x.reline_cons (by decide), x.reline_cons (by decide), eq_of_closeComment? hclose] at h
  rw [read_block h (not_infix_of_closeComment? hclose), x.any_isLineBreak_reline]

theorem spread_line (body : List Char) :
    x.spread ('/' :: '/' :: body) (2 + (firstLine body).length) = 2 + (firstLine body).length := by
  have hline : firstLine ('/' :: '/' :: body) = '/' :: '/' :: firstLine body := by
    rw [firstLine_cons rfl, firstLine_cons rfl]
  refine x.spread_of_le ?_
  rw [hline, List.length_cons, List.length_cons]
  omega

theorem spread_block {body text rest : List Char} (hc : closeComment? body = some (text, rest)) :
    x.spread ('/' :: '*' :: body) (4 + text.length) = 4 + (x.reline text).length := by
  have hsplit : '/' :: '*' :: body = ('/' :: '*' :: (text ++ ['*', '/'])) ++ rest := by
    rw [eq_of_closeComment? hc]
    simp
  have hlength (cs : List Char) : 4 + cs.length = ('/' :: '*' :: (cs ++ ['*', '/'])).length := by
    simp only [List.length_cons, List.length_append, List.length_nil]
    omega
  have hends : x.reline ['*', '/'] = ['*', '/'] := rfl
  rw [hsplit, hlength, x.spread_append, hlength, x.reline_cons (by decide),
    x.reline_cons (by decide), x.reline_append, hends]

theorem relined_read (c : Cursor) :
    ∀ d, c.Relined x d → (read c).Relined x (read d) := by
  fun_induction read c with
  | case1 c body hrest text after ih =>
    intro d h
    have hd := h.rest
    rw [hrest] at hd
    have hspread : 2 + (firstLine body).length = x.spread c.rest (2 + (firstLine body).length) := by
      rw [hrest, spread_line]
    have hself : x.reline (firstLine body) = firstLine body :=
      x.reline_eq_self fun hmem => absurd (isLineBreak_of_mem_firstLine hmem) (by decide)
    rw [read_relined_line hd]
    refine (ih _ (h.move_eq hspread)).withComment ?_ false
    refine ⟨rfl, ?_, h.position⟩
    show _ = x.relineText (String.ofList (firstLine body))
    rw [x.relineText_ofList, hself]
  | case2 c body hrest text rest hc after ih =>
    intro d h
    have hd := h.rest
    rw [hrest] at hd
    have hspread : 4 + (x.reline text).length = x.spread c.rest (4 + text.length) := by
      rw [hrest, spread_block hc]
    rw [read_relined_block hd hc]
    refine (ih _ (h.move_eq hspread)).withComment ?_ _
    exact ⟨rfl, (x.relineText_ofList text).symm, h.position⟩
  | case3 c body hrest hc =>
    intro d h
    have hd : d.rest = '/' :: '*' :: x.reline body := by
      rw [h.rest, hrest, x.reline_cons (by decide), x.reline_cons (by decide)]
    have hclose : closeComment? (x.reline body) = none := by
      rw [x.closeComment?_reline, hc]
      rfl
    rw [read_unclosed hd hclose]
    exact ⟨h, .nil, rfl, rfl⟩
  | case4 c ch rest _ _ hrest hb next ih =>
    intro d h
    by_cases hch : ch = '\n'
    · subst hch
      have hd : d.rest = x.chars ++ x.reline rest := by rw [h.rest, hrest, x.reline_newline]
      obtain ⟨hcursor, hcomments, -, hunclosed⟩ := ih _ (h.newline hrest)
      rw [read_chars hd]
      exact ⟨hcursor, hcomments, rfl, hunclosed⟩
    · have hd : d.rest = ch :: x.reline rest := by rw [h.rest, hrest, x.reline_cons hch]
      obtain ⟨hcursor, hcomments, -, hunclosed⟩ := ih _ (h.step hrest hch)
      rw [read_lineBreak hd hb]
      exact ⟨hcursor, hcomments, rfl, hunclosed⟩
  | case5 c ch rest _ _ hrest hb hw ih =>
    intro d h
    have hch : ch ≠ '\n' := (ne_of_isLineBreak rfl (isLineBreak_of_isBlank hw)).symm
    have hd : d.rest = ch :: x.reline rest := by rw [h.rest, hrest, x.reline_cons hch]
    rw [read_blank hd hw]
    exact ih _ (h.step hrest hch)
  | case6 c ch rest hline hblock hrest hb hw =>
    intro d h
    have hstart : startsToken c.rest = true := by
      rw [hrest, startsToken]
      · simp [isSpace, hb, hw]
      · exact hline
      · exact hblock
    have hd : startsToken d.rest = true := by
      rw [h.rest]
      exact x.startsToken_reline hstart
    rw [read_of_startsToken hd]
    exact ⟨h, .nil, rfl, rfl⟩
  | case7 c hrest =>
    intro d h
    have hd : startsToken d.rest = true := by rw [h.rest, hrest]; rfl
    rw [read_of_startsToken hd]
    exact ⟨h, .nil, rfl, rfl⟩

/-- A gap passes what stands in front of the rest. -/
theorem rest_read_suffix (c : Cursor) : (read c).cursor.rest <:+ c.rest := by
  fun_induction read c with
  | case1 c body hrest text after ih =>
    refine ih.trans ?_
    rw [Cursor.rest_move]
    exact List.drop_suffix _ _
  | case2 c body hrest text rest hc after ih =>
    refine ih.trans ?_
    rw [Cursor.rest_move]
    exact List.drop_suffix _ _
  | case3 => exact List.suffix_rfl
  | case4 c ch rest _ _ hrest hb next ih =>
    rw [Cursor.rest_step] at ih
    exact ih.trans (List.tail_suffix _)
  | case5 c ch rest _ _ hrest hb hw ih =>
    rw [Cursor.rest_step] at ih
    exact ih.trans (List.tail_suffix _)
  | case6 => exact List.suffix_rfl
  | case7 => exact List.suffix_rfl

end Gap

/-- The same token at the same position, its comments relined. -/
structure Token.Relined (x : LineEnding) (s t : Token) : Prop where
  kind : t.kind = s.kind
  value : t.value = s.value
  position : t.location.position = s.location.position
  lineBreak : t.lineBreak = s.lineBreak
  inserted : t.inserted = s.inserted
  comments : List.Forall₂ (Comment.Relined x) s.comments t.comments

structure LexError.Relined (d e : LexError) : Prop where
  fault : e.fault = d.fault
  position : e.location.position = d.location.position

theorem Token.Relined.signs_eq {s t : Token} (h : s.Relined x t) : s.signs = t.signs := by
  simp only [signs, h.kind, h.value, h.lineBreak, h.inserted]

def Pairing.relined (x : LineEnding) : Pairing :=
  whole (Token.Relined x) LexError.Relined fun h => h.signs_eq

namespace Lexer

structure Relined (x : LineEnding) (l m : Lexer) : Prop where
  cursor : l.cursor.Relined x m.cursor
  regexpAllowed : m.regexpAllowed = l.regexpAllowed

variable {l m : Lexer}

/-- Related scans give related tokens or the same fault, and stay related. -/
theorem relined_next [IdentifierTable] (h : l.Relined x m) :
    (Pairing.relined x).item l.next.1 m.next.1 ∧ l.next.2.Relined x m.next.2 := by
  have hgap := Gap.relined_read l.cursor m.cursor h.cursor
  unfold next
  dsimp only
  rw [hgap.unclosed, h.regexpAllowed]
  split
  · exact ⟨⟨rfl, hgap.cursor.position⟩, hgap.cursor, rfl⟩
  · rename_i hclosed
    have hstart := Gap.startsToken_read (Bool.eq_false_iff.2 hclosed)
    have hcuts := x.cuts_read l.regexpAllowed hgap.cursor.plain hstart
    rw [← hgap.cursor.rest] at hcuts
    generalize Cut.read l.regexpAllowed (Gap.read l.cursor).cursor.rest = cut at hcuts ⊢
    generalize Cut.read l.regexpAllowed (Gap.read m.cursor).cursor.rest = cut' at hcuts ⊢
    cases hcuts with
    | token kind length value =>
      refine ⟨?_, hgap.cursor.move length, rfl⟩
      exact ⟨rfl, rfl, hgap.cursor.position, hgap.lineBreak, rfl, hgap.comments⟩
    | fault fault length length' passed =>
      exact ⟨⟨rfl, hgap.cursor.position⟩, hgap.cursor.move passed, rfl⟩

/-- A scan moves if it leaves something behind. -/
theorem exists_passed [IdentifierTable] (l : Lexer) :
    ∃ passed, l.cursor.rest = passed ++ l.next.2.cursor.rest ∧
      (l.cursor.offset < l.next.2.cursor.offset ↔ passed ≠ []) := by
  have hsuffix : l.next.2.cursor.rest <:+ l.cursor.rest := by
    have hgap := Gap.rest_read_suffix l.cursor
    unfold next
    dsimp only
    split
    · exact hgap
    · split
      · rw [Cursor.rest_move]
        exact (List.drop_suffix _ _).trans hgap
      · rw [Cursor.rest_move]
        exact (List.drop_suffix _ _).trans hgap
  obtain ⟨passed, hpassed⟩ := hsuffix
  refine ⟨passed, hpassed.symm, ?_⟩
  have hreach := l.reach_next
  simp only [Cursor.reach, ← hpassed, byteLength_append] at hreach
  constructor
  · rintro hlt rfl
    simp only [byteLength] at hreach
    omega
  · intro hne
    have hpos := byteLength_pos hne
    omega

theorem Relined.moves_iff [IdentifierTable] (h : l.Relined x m) :
    l.cursor.offset < l.next.2.cursor.offset ↔ m.cursor.offset < m.next.2.cursor.offset := by
  obtain ⟨passed, hrest, hmoves⟩ := l.exists_passed
  obtain ⟨passed', hrest', hmoves'⟩ := m.exists_passed
  rw [h.cursor.rest, (relined_next h).2.cursor.rest, hrest, x.reline_append] at hrest'
  rw [hmoves, hmoves', ← List.append_cancel_right hrest', Ne, Ne, x.reline_eq_nil]

theorem cursor_ofText (text : String) :
    (ofText text).cursor = (Cursor.ofText text).move (shebangLength text.toList) := rfl

theorem relined_ofText (x : LineEnding) {text : String} (h : '\r' ∉ text.toList) :
    (ofText text).Relined x (ofText (x.relineText text)) := by
  have htext : (x.relineText text).toList = x.reline text.toList := by
    rw [LineEnding.relineText, String.toList_ofList]
  have hstart : (Cursor.ofText text).Relined x (Cursor.ofText (x.relineText text)) := by
    refine ⟨?_, (rfl : ({} : Position) = {}), h⟩
    rw [Cursor.rest_ofText, Cursor.rest_ofText, htext]
  have hlength : shebangLength (x.relineText text).toList =
      x.spread text.toList (shebangLength text.toList) := by
    rw [x.spread_of_le (shebangLength_le _), htext, shebangLength_eq, x.firstLine_reline, shebangLength_eq]
  refine ⟨?_, (rfl : true = true)⟩
  rw [cursor_ofText, cursor_ofText]
  exact hstart.move_eq hlength

end Lexer

theorem Pairing.abreast_relined [IdentifierTable] (x : LineEnding) :
    (relined x).Abreast (Lexer.Relined x) where
  item h := (Lexer.relined_next h).1
  next h := (Lexer.relined_next h).2
  moves h := h.moves_iff

/-- The same tokens through `eof`, or up to the same fault. -/
structure Scan.Relined (x : LineEnding) (s t : Scan) : Prop where
  tokens : List.Forall₂ (Token.Relined x) s.tokens t.tokens
  error : Option.Rel LexError.Relined s.error t.error

theorem Scan.relined_ofText [IdentifierTable] (x : LineEnding) {text : String}
    (h : '\r' ∉ text.toList) :
    (ofText text).Relined x (ofText (x.relineText text)) := by
  obtain ⟨hitems, hfinal⟩ := (Pairing.abreast_relined x).feed _ _ (Lexer.relined_ofText x h)
  obtain ⟨htokens, herror⟩ := Pairing.scans_ofItems hfinal hitems
  exact ⟨htokens, herror⟩

/-! ## Scripts -/

structure Diagnostic.Matches (a b : Diagnostic) : Prop where
  message : b.message = a.message
  text : b.text = a.text
  position : b.position? = a.position?

theorem Diagnostic.matches_located {l m : Location} (h : m.position = l.position)
    (message : Message) (arguments : List String) :
    (located l message arguments).Matches (located m message arguments) :=
  ⟨rfl, rfl, congrArg some h⟩

namespace Pairing

theorem feeds_relined [IdentifierTable] (x : LineEnding) {text : String} (h : '\r' ∉ text.toList) :
    (relined x).Feeds [] (.ofText text) (.ofText (x.relineText text)) :=
  (abreast_relined x).feeds (Lexer.relined_ofText x h)

/-- A semicolon is put in at the position of the token behind it. -/
theorem Met.position_eq {s t : Token} (h : (relined x).Met s t) :
    t.location.position = s.location.position := by
  cases h with
  | token h => exact Token.Relined.position h
  | @semicolon s t h => exact (show Token.Relined x s t from h).position

theorem Warned.matches {v w : Warning} (h : (relined x).Warned v w) :
    v.toDiagnostic.Matches w.toDiagnostic := by
  obtain ⟨hcause, s, t, hmet, hv, hw⟩ := h
  rw [Warning.toDiagnostic, Warning.toDiagnostic, hcause]
  refine Diagnostic.matches_located ?_ _ _
  rw [hv, hw]
  exact hmet.position_eq

theorem Fails.relined {d e : ReadError} (h : (relined x).Fails d e) :
    d.fault.bare = e.fault.bare ∧ e.location.position = d.location.position := by
  cases h with
  | lexical hlexical =>
    have hfault := LexError.Relined.fault hlexical
    exact ⟨congrArg ReadFault.lexical hfault.symm, hlexical.position⟩
  | here hmet hcause hfirst hsecond =>
    refine ⟨hcause, ?_⟩
    rw [hfirst, hsecond]
    exact hmet.position_eq

end Pairing

/-- Whatever ends the lines of a text, the same tokens are scanned at the same positions
or the same fault is met there, and a script is read that says the same with the same
warnings at the same positions, or reading fails for the same cause at the same position. -/
theorem Script.line_endings_equal [IdentifierTable] (x : LineEnding) (text : String)
    (h : '\r' ∉ text.toList) :
    (Scan.ofText text).Relined x (Scan.ofText (x.relineText text)) ∧
    match ofText text, ofText (x.relineText text) with
    | .ok s, .ok t => Node.alikeAll s.body t.body = true ∧
        List.Forall₂ (fun v w => v.toDiagnostic.Matches w.toDiagnostic) s.warnings t.warnings
    | .error d, .error e =>
        d.fault.bare = e.fault.bare ∧ e.location.position = d.location.position
    | _, _ => False := by
  refine ⟨Scan.relined_ofText x h, ?_⟩
  rcases ofFeed_whole (fun _ => id) (Pairing.feeds_relined x h) with
    ⟨s, t, hs, ht, hbody, hwarnings⟩ | ⟨d, e, hd, he, hfails⟩
  · rw [show ofText text = .ok s from hs, show ofText (x.relineText text) = .ok t from ht]
    exact ⟨Node.alikeAll_of_bareAll_eq _ _ hbody, hwarnings.imp fun _ _ => Pairing.Warned.matches⟩
  · rw [show ofText text = .error d from hd, show ofText (x.relineText text) = .error e from he]
    exact hfails.relined

/-- A line for the system, a comment and a string that go on behind their lines. -/
theorem Script.line_endings_equal_continued :
    '\r' ∉ "#!x\n/*a\n*/b='c\\\nd'//e\n".toList ∧
    (Scan.ofText "#!x\n/*a\n*/b='c\\\nd'//e\n").Relined .carriageReturnLineFeed
      (Scan.ofText "#!x\r\n/*a\r\n*/b='c\\\r\nd'//e\r\n") ∧
    ∃ s t, ofText "#!x\n/*a\n*/b='c\\\nd'//e\n" = .ok s ∧
      ofText "#!x\r\n/*a\r\n*/b='c\\\r\nd'//e\r\n" = .ok t ∧
      Node.alikeAll s.body t.body = true := by
  have hplain : '\r' ∉ "#!x\n/*a\n*/b='c\\\nd'//e\n".toList := by decide
  have hrelined : LineEnding.relineText .carriageReturnLineFeed "#!x\n/*a\n*/b='c\\\nd'//e\n" =
      "#!x\r\n/*a\r\n*/b='c\\\r\nd'//e\r\n" := by decide
  obtain ⟨hscan, hread⟩ := line_endings_equal .carriageReturnLineFeed _ hplain
  rw [hrelined] at hscan hread
  refine ⟨hplain, hscan, ?_⟩
  have hok : (ofText "#!x\n/*a\n*/b='c\\\nd'//e\n").isOk = true := by decide +kernel
  cases hs : ofText "#!x\n/*a\n*/b='c\\\nd'//e\n" with
  | error d =>
    rw [hs] at hok
    cases hok
  | ok s =>
    rw [hs] at hread
    cases ht : ofText "#!x\r\n/*a\r\n*/b='c\\\r\nd'//e\r\n" with
    | error e =>
      rw [ht] at hread
      exact hread.elim
    | ok t =>
      rw [ht] at hread
      exact ⟨s, t, rfl, rfl, hread.1⟩

end ScriptOutline
