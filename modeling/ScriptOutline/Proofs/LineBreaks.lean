/-
The flag of a token says what the table of lines says.

A gap notes a line break where it meets one in white space, and where it finds one in the text of a
block comment.  A cursor counts a line where the line ends, and `Lines.lineOf` finds the same count
in a table.  So a token is flagged exactly if it starts on a later line than the token before it
ends on: one lemma for the gap, `Gap.lineBreak_read_iff`, and the table is that of the cursor.
-/
import ScriptOutline.Proofs.Located

namespace ScriptOutline

open Text

theorem Text.any_isLineBreak_takeWhile (cs : List Char) :
    (cs.takeWhile (!isLineBreak ·)).any isLineBreak = false := by
  rw [List.any_eq_false]
  intro ch hch
  simpa using List.all_eq_true.mp List.all_takeWhile ch hch

/-- A line break that does not end its line leaves that to a line feed. -/
theorem Text.feed_of_not_endsLine {ch : Char} {next : Option Char} (hch : isLineBreak ch = true)
    (h : ¬ endsLine ch next = true) : next = some '\n' := by
  rw [endsLine, hch, Bool.true_and, Bool.not_eq_true', Bool.not_eq_false, Bool.and_eq_true,
    beq_iff_eq, beq_iff_eq] at h
  exact h.2

namespace Cursor

variable {c : Cursor}

theorem line_step_of_endsLine {ch : Char} {rest : List Char} (h : c.rest = ch :: rest)
    (hends : endsLine ch rest.head? = true) : c.step.position.line = c.position.line + 1 := by
  rw [step, h]
  simp only [hends, if_true]

theorem line_step_of_not_isLineBreak {ch : Char} {rest : List Char} (h : c.rest = ch :: rest)
    (hch : isLineBreak ch = false) : c.step.position.line = c.position.line := by
  have hends : endsLine ch rest.head? = false := by rw [endsLine, hch, Bool.false_and]
  rw [step, h]
  simp only [hends, Bool.false_eq_true, if_false]

theorem line_le_step (c : Cursor) : c.position.line ≤ c.step.position.line := by
  unfold step
  split
  · exact Nat.le_refl _
  · dsimp only
    split
    · exact Nat.le_succ _
    · exact Nat.le_refl _

theorem line_le_move (c : Cursor) (n : Nat) : c.position.line ≤ (c.move n).position.line := by
  induction n generalizing c with
  | zero => exact Nat.le_refl _
  | succ n ih => exact Nat.le_trans (line_le_step c) (ih c.step)

theorem line_move_of_no_break {body tail : List Char} (h : c.rest = body ++ tail)
    (hbody : body.any isLineBreak = false) :
    (c.move body.length).position.line = c.position.line := by
  induction body generalizing c with
  | nil => rfl
  | cons ch body ih =>
    rw [List.any_cons, Bool.or_eq_false_iff] at hbody
    have hrest : c.step.rest = body ++ tail := by
      rw [rest_step, h, List.cons_append, List.tail_cons]
    rw [List.length_cons, move, ih hrest hbody.2, line_step_of_not_isLineBreak h hbody.1]

/-- A carriage return that does not end its line has its line feed behind it, which does, as long
as characters are passed up to one that breaks no line. -/
theorem line_lt_move {body tail : List Char} {last : Char} (h : c.rest = body ++ last :: tail)
    (hlast : isLineBreak last = false) (hbody : body.any isLineBreak = true) :
    c.position.line < (c.move body.length).position.line := by
  induction body generalizing c with
  | nil => contradiction
  | cons ch body ih =>
    have hrest : c.step.rest = body ++ last :: tail := by
      rw [rest_step, h, List.cons_append, List.tail_cons]
    have hstep := line_le_step c
    rw [List.length_cons, move]
    by_cases hends : endsLine ch (body ++ last :: tail).head? = true
    · have hline := line_step_of_endsLine h hends
      have hmove := line_le_move c.step body.length
      omega
    · have hbehind : body.any isLineBreak = true := by
        rw [List.any_cons, Bool.or_eq_true] at hbody
        rcases hbody with hch | hbody
        · have hfeed := feed_of_not_endsLine hch hends
          cases body with
          | nil =>
            obtain rfl : last = '\n' := Option.some.inj hfeed
            contradiction
          | cons d body =>
            obtain rfl : d = '\n' := Option.some.inj hfeed
            rfl
        · exact hbody
      exact Nat.lt_of_le_of_lt hstep (ih hrest hbehind)

theorem line_lt_move_iff {body tail : List Char} {last : Char} (h : c.rest = body ++ last :: tail)
    (hlast : isLineBreak last = false) :
    c.position.line < (c.move (body.length + 1)).position.line ↔ body.any isLineBreak = true := by
  have hrest : (c.move body.length).rest = last :: tail := by
    rw [rest_move, h, List.drop_left]
  have hline : (c.move (body.length + 1)).position.line = (c.move body.length).position.line := by
    rw [move_add]
    exact line_step_of_not_isLineBreak hrest hlast
  rw [hline]
  constructor
  · intro hlt
    by_contra hnone
    rw [line_move_of_no_break h (by simpa using hnone)] at hlt
    omega
  · exact line_lt_move h hlast

end Cursor

namespace Gap

theorem line_le_read (c : Cursor) : c.position.line ≤ (read c).cursor.position.line := by
  fun_induction read c with
  | case1 c body hrest text after ih => exact Nat.le_trans (c.line_le_move _) ih
  | case2 c body hrest text rest hc after ih => exact Nat.le_trans (c.line_le_move _) ih
  | case3 => exact Nat.le_refl _
  | case4 c ch rest _ _ hrest hb next ih => exact Nat.le_trans c.line_le_step ih
  | case5 c ch rest _ _ hrest hb hw ih => exact Nat.le_trans c.line_le_step ih
  | case6 => exact Nat.le_refl _
  | case7 => exact Nat.le_refl _

theorem lineBreak_read_of_break {c : Cursor} {ch : Char} {rest : List Char}
    (h : c.rest = ch :: rest) (hch : isLineBreak ch = true) : (read c).lineBreak = true := by
  have hslash : ch ≠ '/' := by
    rintro rfl
    contradiction
  rw [read]
  split
  · rename_i hrest
    rw [h] at hrest
    exact absurd (List.cons.inj hrest).1 hslash
  · rename_i hrest
    rw [h] at hrest
    exact absurd (List.cons.inj hrest).1 hslash
  · rename_i hrest
    rw [h] at hrest
    obtain ⟨rfl, -⟩ := List.cons.inj hrest
    rw [if_pos hch]
  · rename_i hrest
    rw [h] at hrest
    contradiction

/-- A gap notes a line break if and only if it ends on a later line. -/
theorem lineBreak_read_iff (c : Cursor) :
    (read c).lineBreak = true ↔ c.position.line < (read c).cursor.position.line := by
  fun_induction read c with
  | case1 c body hrest text after ih =>
    have hbody : c.rest = ('/' :: '/' :: text) ++ body.dropWhile (!isLineBreak ·) := by
      rw [hrest, List.cons_append, List.cons_append, List.takeWhile_append_dropWhile]
    have hbreaks : ('/' :: '/' :: text).any isLineBreak = false := by
      rw [List.any_cons, List.any_cons, any_isLineBreak_takeWhile]
      rfl
    have hline : after.position.line = c.position.line := by
      show (c.move (2 + text.length)).position.line = _
      rw [Nat.add_comm]
      exact Cursor.line_move_of_no_break hbody hbreaks
    rw [← hline]
    exact ih
  | case2 c body hrest text rest hc after ih =>
    have hbody : c.rest = ('/' :: '*' :: text ++ ['*']) ++ '/' :: rest := by
      rw [hrest, eq_of_closeComment? hc]
      simp
    have hafter : after = c.move (('/' :: '*' :: text ++ ['*']).length + 1) := by
      show c.move (4 + text.length) = _
      simp only [List.length_append, List.length_cons, List.length_nil]
      congr 1
      omega
    have hlines : c.position.line < after.position.line ↔ text.any isLineBreak = true := by
      rw [hafter, Cursor.line_lt_move_iff hbody rfl, List.any_append]
      show (text.any isLineBreak || false) = true ↔ _
      rw [Bool.or_false]
    have hle : c.position.line ≤ after.position.line := c.line_le_move _
    have hread := line_le_read after
    show (text.any isLineBreak || (read after).lineBreak) = true ↔
      c.position.line < (read after).cursor.position.line
    rw [Bool.or_eq_true, ← hlines, ih]
    omega
  | case3 => exact iff_of_false Bool.false_ne_true (Nat.lt_irrefl _)
  | case4 c ch rest _ _ hrest hb next ih =>
    refine iff_of_true rfl ?_
    have hread := line_le_read c.step
    show c.position.line < (read c.step).cursor.position.line
    by_cases hends : endsLine ch rest.head? = true
    · have := Cursor.line_step_of_endsLine hrest hends
      omega
    · -- a carriage return before its line feed
      have hstep := c.line_le_step
      have hfeed := feed_of_not_endsLine hb hends
      obtain ⟨behind, hbehind⟩ := List.head?_eq_some_iff.mp hfeed
      have hnext : c.step.rest = '\n' :: behind := by
        rw [Cursor.rest_step, hrest, List.tail_cons, hbehind]
      have := ih.mp (lineBreak_read_of_break hnext rfl)
      omega
  | case5 c ch rest _ _ hrest hb hw ih =>
    rw [← Cursor.line_step_of_not_isLineBreak hrest (by simpa using hb)]
    exact ih
  | case6 => exact iff_of_false Bool.false_ne_true (Nat.lt_irrefl _)
  | case7 => exact iff_of_false Bool.false_ne_true (Nat.lt_irrefl _)

end Gap

/-- Each token is flagged if and only if it starts on a later line than the one before it ends on,
where `line` is the line before the first of them. -/
def Flagged (lines : Lines) (line : Nat) : List Token → Prop
  | [] => True
  | t :: tokens =>
    (t.lineBreak = true ↔ line < lines.lineOf t.location.span.start) ∧
      Flagged lines (lines.lineOf t.location.span.stop) tokens

variable {text : String}

theorem Cursor.Reached.lineOf_eq {c : Cursor} (h : c.Reached text) :
    (Lines.ofText text).lineOf c.offset = c.position.line := by
  obtain ⟨head, line, h⟩ := h
  exact h.lineOf_eq

theorem Lexer.lineBreak_next [IdentifierTable] {l : Lexer} {t : Token} (h : l.next.1 = .ok t) :
    t.lineBreak = (Gap.read l.cursor).lineBreak := by
  simp only [next] at h
  split at h
  · contradiction
  · split at h
    · rw [← Except.ok.inj h]
    · contradiction

/-- A scan that gives a token flags it by the lines, and goes on where the token ends. -/
theorem Lexer.lineBreak_next_iff [IdentifierTable] {l : Lexer} {t : Token}
    (hl : l.cursor.Reached text) (h : l.next.1 = .ok t) :
    (t.lineBreak = true ↔
      l.cursor.position.line < (Lines.ofText text).lineOf t.location.span.start) ∧
      (Lines.ofText text).lineOf t.location.span.stop = l.next.2.cursor.position.line := by
  obtain ⟨length, -, -, hlocation, -, hnext⟩ := next_eq_ok h
  have hgap := Gap.reached_read hl
  have hle : (Gap.read l.cursor).cursor.offset ≤ ((Gap.read l.cursor).cursor.move length).offset := by
    rw [Cursor.offset_move]
    exact Nat.le_add_right _ _
  have hstart : t.location.span.start = (Gap.read l.cursor).cursor.offset := by
    rw [hlocation]
    rfl
  have hstop : t.location.span.stop = ((Gap.read l.cursor).cursor.move length).offset := by
    rw [hlocation]
    exact Span.stop_between hle
  constructor
  · rw [lineBreak_next h, hstart, hgap.lineOf_eq]
    exact Gap.lineBreak_read_iff l.cursor
  · rw [hstop, (hgap.move length).lineOf_eq, hnext]

theorem TokenFeed.flagged_ofLexer [IdentifierTable] {l : Lexer} (hl : l.cursor.Reached text) :
    Flagged (.ofText text) l.cursor.position.line
      (Scan.ofItems (ofLexer l).final (ofLexer l).items).tokens := by
  fun_induction ofLexer l with
  | case1 l step hmoves ih =>
    have htail := ih (Lexer.reached_next hl)
    show Flagged _ _ (Scan.ofItems _ (step.1 :: _)).tokens
    cases hnext : step.1 with
    | error e => exact trivial
    | ok t =>
      obtain ⟨hflag, hstop⟩ := Lexer.lineBreak_next_iff hl hnext
      rw [← hstop] at htail
      rw [Scan.ofItems]
      split
      · exact ⟨hflag, trivial⟩
      · exact ⟨hflag, htail⟩
  | case2 l step hstays =>
    show Flagged _ _ (Scan.ofItems step.1 []).tokens
    cases hnext : step.1 with
    | error e => exact trivial
    | ok t => exact ⟨(Lexer.lineBreak_next_iff hl hnext).1, trivial⟩

/-- The line that a list of tokens ends on, which is the first one if there is none. -/
def Lines.lastOf (lines : Lines) (tokens : List Token) : Nat :=
  (tokens.getLast?.map fun t => lines.lineOf t.location.span.stop).getD 0

theorem Flagged.split {lines : Lines} {line : Nat} {before behind : List Token} {t : Token}
    (h : Flagged lines line (before ++ t :: behind)) :
    t.lineBreak = true ↔
      (before.getLast?.map fun t => lines.lineOf t.location.span.stop).getD line <
        lines.lineOf t.location.span.start := by
  induction before generalizing line with
  | nil => exact h.1
  | cons u before ih =>
    have htail := ih h.2
    cases before with
    | nil => exact htail
    | cons v before =>
      rw [List.getLast?_cons_cons]
      rw [List.getLast?_eq_some_getLast (List.cons_ne_nil v before)] at htail ⊢
      exact htail

/-- The line for the system is passed on the first line. -/
theorem Lexer.line_ofText (text : String) : (ofText text).cursor.position.line = 0 := by
  show ((Cursor.ofText text).move (shebangLength (Cursor.ofText text).rest)).position.line = 0
  unfold shebangLength
  split
  · rename_i rest hrest
    have hline : (Cursor.ofText text).rest =
        ('#' :: '!' :: rest.takeWhile (!isLineBreak ·)) ++ rest.dropWhile (!isLineBreak ·) := by
      rw [hrest, List.cons_append, List.cons_append, List.takeWhile_append_dropWhile]
    have hbreaks : ('#' :: '!' :: rest.takeWhile (!isLineBreak ·)).any isLineBreak = false := by
      rw [List.any_cons, List.any_cons, any_isLineBreak_takeWhile]
      rfl
    rw [runLength, Nat.add_comm]
    exact Cursor.line_move_of_no_break hline hbreaks
  · rfl

/-- A token that is scanned before the first fault is flagged if and only if it starts on a later
line than the token before it ends on, or than the first line if there is none before it. -/
theorem Scan.lineBreak_iff_lines [IdentifierTable] {text : String} {before behind : List Token}
    {t : Token} (h : (ofText text).tokens = before ++ t :: behind) :
    t.lineBreak = true ↔
      (Lines.ofText text).lastOf before < (Lines.ofText text).lineOf t.location.span.start := by
  have hflagged := TokenFeed.flagged_ofLexer (Lexer.reached_ofText text)
  rw [Lexer.line_ofText] at hflagged
  rw [ofText, TokenFeed.ofText] at h
  rw [h] at hflagged
  exact hflagged.split

/-- Behind a string that goes on over two lines a token is not flagged. -/
theorem Scan.lineBreak_iff_lines_string :
    ∃ before t behind,
      (ofText "#!x\r\n/*\r*/a 'b\\\r\nc' d\u2028e").tokens = before ++ t :: behind ∧
        t.value = "d" ∧ t.lineBreak = false ∧
        (t.lineBreak = true ↔
          (Lines.ofText "#!x\r\n/*\r*/a 'b\\\r\nc' d\u2028e").lastOf before <
            (Lines.ofText "#!x\r\n/*\r*/a 'b\\\r\nc' d\u2028e").lineOf t.location.span.start) := by
  have hlt : 2 < (ofText "#!x\r\n/*\r*/a 'b\\\r\nc' d\u2028e").tokens.length := by decide +kernel
  have hsplit : (ofText "#!x\r\n/*\r*/a 'b\\\r\nc' d\u2028e").tokens =
      (ofText "#!x\r\n/*\r*/a 'b\\\r\nc' d\u2028e").tokens.take 2 ++
        (ofText "#!x\r\n/*\r*/a 'b\\\r\nc' d\u2028e").tokens[2] ::
          (ofText "#!x\r\n/*\r*/a 'b\\\r\nc' d\u2028e").tokens.drop 3 := by
    rw [← List.drop_eq_getElem_cons, List.take_append_drop]
  exact ⟨_, _, _, hsplit, by decide +kernel +revert, by decide +kernel +revert,
    lineBreak_iff_lines hsplit⟩

end ScriptOutline
