/-
Token trees that are written out are scanned again.

Between two tokens stands a line break, a space or nothing.  `Token.free_gap` goes through the
pairs of tokens: the first one ends where it should, unless it is a point and a number follows it
directly.  `Lexer.comesBack_iff` goes along the tokens, one scan for each of them.
-/
import ScriptOutline.Proofs.Fitting
import ScriptOutline.Proofs.Quoting

namespace ScriptOutline

open Text

namespace Token

/-- A point and a number on one line, which are written as `.5` is. -/
def runsInto (s t : Token) : Bool :=
  s.isPunctuation "." && t.kind == .number && t.value.toList.head?.any isDigit && !t.lineBreak

/-- A string that is written with an escape that reads as something else. -/
def zeroBeforeDigit (t : Token) : Prop :=
  t.kind = .string ∧ ∃ d, isDigit d = true ∧ ['\x00', d] <:+: t.value.toList

theorem reread_value_eq_iff {t : Token} : t.reread.value = t.value ↔ ¬ t.zeroBeforeDigit := by
  unfold reread zeroBeforeDigit
  split
  · rename_i hk
    rw [Literal.ofList_rereadAll_eq_iff]
    simp [hk]
  · rename_i hk
    simp [hk]

/-- What the spelling of a token begins with tells the kind of the token. -/
theorem exists_first [IdentifierTable] {t : Token} (hl : Lexical t.kind t.value)
    (he : t.isEof = false) :
    ∃ c cs, (Printer.spelling t).toList = c :: cs ∧
      (isDigit c = true → t.kind = .number ∧ t.value.toList.head?.any isDigit = true) ∧
      (c = '=' → t.kind = .operator) := by
  obtain ⟨kind, value, location, lineBreak, inserted, comments⟩ := t
  simp only [isEof] at hl he ⊢
  cases hl with
  | @word _ _ c cs hv hstart hpart hk =>
    have hne : kind ≠ .string := by
      rintro rfl
      rcases wordKind_cases value with h | ⟨h, -⟩ | h | h <;> rw [h] at hk <;> cases hk
    rw [spelling_of_ne hne]
    refine ⟨c, cs, hv, fun hd => ?_, fun hc => ?_⟩
    · exact absurd rfl (ne_of_mem_openers hstart (mem_openers_of_isDigit hd))
    · exact absurd hc (ne_of_mem_openers hstart (by decide))
  | point =>
    have hpoint : ".".toList = ['.'] := by decide
    rw [spelling_of_ne (by simp)]
    exact ⟨'.', [], hpoint, by decide, by decide⟩
  | @mark c hmark =>
    have hall : ∀ d ∈ punctuationMarks, isDigit d = false ∧ d ≠ '=' :=
      forall_mem_of_all (by decide)
    obtain ⟨hdigit, heq⟩ := hall c (mem_punctuationMarks hmark)
    rw [spelling_of_ne (by simp)]
    exact ⟨c, [], String.toList_ofList, by simp [hdigit], fun h => absurd h heq⟩
  | sign hmem =>
    have hall : ∀ d ∈ Text.signs, isDigit d = false := forall_mem_of_all (by decide)
    rw [spelling_of_ne (by simp)]
    cases hv : value.toList with
    | nil =>
      have hpos := length_pos_of_mem_signOperators hmem
      rw [← String.length_toList, hv] at hpos
      exact absurd hpos (Nat.lt_irrefl 0)
    | cons c cs =>
      have hdigit := hall c (mem_signs hmem c (by rw [hv]; exact List.mem_cons_self))
      exact ⟨c, cs, rfl, by simp [hdigit], fun _ => rfl⟩
  | string _ =>
    refine ⟨'\x22', value.toList.flatMap Quoted.character ++ ['\x22'], ?_,
      fun hd => absurd hd (by decide), by decide⟩
    show (quoted value).toList = _
    rw [quoted, String.toList_ofList, Quoted.characters]
  | @number _ c cs hv hstart hlen =>
    rw [spelling_of_ne (by simp)]
    refine ⟨c, cs, hv, fun hd => ⟨rfl, by rw [hv]; exact hd⟩, ?_⟩
    rintro rfl
    rcases hstart with hd | ⟨hd, -⟩ <;> cases hd
  | @regexp _ c cs hv hbody hextent =>
    rw [spelling_of_ne (by simp)]
    exact ⟨'/', c :: cs, hv, fun hd => absurd hd (by decide), by decide⟩
  | eof => cases he

theorem endsBefore_of_not_part [IdentifierTable] {t : Token} {c : Char}
    (hpart : isIdentifierPart c = false)
    (hsign : c ∉ Text.signs) (hnumber : t.kind = .number → Literal.endsNumber c = true) :
    t.endsBefore c = true := by
  have hbegins := no_sign_begins_of_not_mem hsign t.value.toList
  have hslash : c ≠ '/' ∧ c ≠ '*' := by
    constructor <;> rintro rfl <;> exact hsign (by decide)
  have hdigit := Literal.isDigit_of_not_part hpart
  unfold endsBefore
  split
  · simp [hpart]
  · simp [hpart]
  · simp [hpart]
  · simp [hpart]
  · rename_i hk
    exact hnumber hk
  · split
    · simp [hpart]
    · simp [hbegins, hslash]
  · simp [hdigit]
  · rfl
  · rfl

/-- White space and most punctuation end every token in front of them. -/
theorem endsBefore_of_mem [IdentifierTable] {c : Char}
    (hc : c ∈ [' ', '\n', '(', ')', '[', ']', ',', ';', ':']) (t : Token) :
    t.endsBefore c = true := by
  have hall : ∀ d ∈ [' ', '\n', '(', ')', '[', ']', ',', ';', ':'],
      d.toNat ≤ 0x7f ∧ (d == '_' || d == '$' || isLetter d || isDigit d) = false ∧
        d ∉ Text.signs ∧ d ≠ '.' ∧ d ≠ '+' ∧ d ≠ '-' := forall_mem_of_all (by decide)
  obtain ⟨hle, hother, hsign, hpoint, hplus, hminus⟩ := hall c hc
  have hpart : isIdentifierPart c = false := by rw [isIdentifierPart_of_le hle, hother]
  refine endsBefore_of_not_part hpart hsign fun _ => ?_
  simp [Literal.endsNumber, hpart, hpoint, hplus, hminus]

/-- A negation is longer only before an equals sign. -/
theorem endsBefore_of_negation [IdentifierTable] {t : Token}
    (ht : t.isOperator "!" = true ∨ t.isOperator "~" = true)
    {c : Char} (hc : c ≠ '=') : t.endsBefore c = true := by
  have hall : ∀ sign ∈ signOperators,
      sign.toList.head? = some '!' ∨ sign.toList.head? = some '~' →
        sign.toList[1]? = none ∨ sign.toList[1]? = some '=' := by decide +kernel
  obtain ⟨hk, d, hd, hv⟩ : t.kind = .operator ∧ ∃ d, (d = '!' ∨ d = '~') ∧
      t.value = String.ofList [d] := by
    simp only [isOperator, Bool.and_eq_true, beq_iff_eq] at ht
    rcases ht with ⟨hk, hv⟩ | ⟨hk, hv⟩
    · exact ⟨hk, '!', .inl rfl, hv⟩
    · exact ⟨hk, '~', .inr rfl, hv⟩
  have hword : wordOperators.contains t.value = false ∧ t.value ≠ "/" := by
    rw [hv]
    rcases hd with rfl | rfl <;> decide
  have hbegins : signOperators.all
      (fun sign => !(t.value.toList ++ [c]).isPrefixOf sign.toList) = true := by
    rw [hv, String.toList_ofList]
    refine no_sign_begins_iff.2 ?_
    rintro sign hmem ⟨rest, hsign⟩
    have hsecond := hall sign hmem
    rw [← hsign] at hsecond
    rcases hsecond (by simpa using hd) with h | h
    · simp at h
    · exact hc (by simpa using h)
  simp only [endsBefore, hk, hword.1, hbegins, Bool.false_eq_true, if_false, Bool.true_and]
  simp [hword.2]

end Token

namespace Printer

theorem chars_gap (indentation : String) (level : Nat) (last : Token) (next : Nat × Token)
    (ps : List Piece) :
    Piece.chars indentation (gap level last next ++ ps) =
      (if next.2.lineBreak then
        '\n' :: (List.replicate (level + next.1) indentation.toList).flatten
      else if needsSpace last next.2 then [' '] else []) ++ Piece.chars indentation ps := by
  unfold gap
  split
  · simp
  split
  · simp
  · simp

theorem exists_blanks {indentation : String} (hi : ∀ ch ∈ indentation.toList, isBlank ch = true)
    (level : Nat) (last : Token) (next : Nat × Token) :
    ∃ blanks, (∀ ch ∈ blanks, isBlank ch = true) ∧
      ∀ ps, Piece.chars indentation (gap level last next ++ ps) =
        (if next.2.lineBreak then ['\n'] else []) ++ (blanks ++ Piece.chars indentation ps) := by
  simp only [chars_gap]
  split
  · refine ⟨(List.replicate (level + next.1) indentation.toList).flatten, ?_, fun ps => rfl⟩
    intro ch hch
    obtain ⟨cs, hcs, hch⟩ := List.mem_flatten.1 hch
    rw [List.eq_of_mem_replicate hcs] at hch
    exact hi ch hch
  split
  · exact ⟨[' '], forall_mem_of_all (by decide +kernel), fun ps => rfl⟩
  · exact ⟨[], nofun, fun ps => rfl⟩

/-- Behind a point nothing is written before a token on the same line. -/
theorem chars_point {indentation : String} {level depth : Nat} {t v : Token}
    {ts : List (Nat × Token)} (hpoint : t.isPunctuation "." = true) (hsame : v.lineBreak = false) :
    (spelling t).toList ++ Piece.chars indentation (tokensAfter level t ((depth, v) :: ts)) =
      '.' :: ((spelling v).toList ++ Piece.chars indentation (tokensAfter level v ts)) := by
  have hspace : needsSpace t v = false := by simp [needsSpace, hpoint]
  simp only [Token.isPunctuation, Bool.and_eq_true, beq_iff_eq] at hpoint
  have hchars : ".".toList = ['.'] := by decide
  rw [tokensAfter, chars_gap, if_neg (by simp [hsame]), if_neg (by simp [hspace]),
    Piece.chars_word, Token.spelling_of_ne (by simp [hpoint.1]), hpoint.2, hchars]
  rfl

/-- A token ends before what is written behind it, unless it is a point that runs into a
number. -/
theorem free_gap [IdentifierTable] {indentation : String} {level depth : Nat} {last next : Token}
    {ps : List Piece} (hnext : Lexical next.kind next.value) (he : next.isEof = false)
    (hinto : last.runsInto next = false) :
    last.Free (Piece.chars indentation
      (gap level last (depth, next) ++ .word (spelling next) :: ps)) := by
  intro c hc
  obtain ⟨d, ds, hd, hdigit, heq⟩ := next.exists_first hnext he
  rw [chars_gap, Piece.chars_word, hd] at hc
  split at hc
  · obtain rfl := Option.some.inj hc
    exact Token.endsBefore_of_mem (by decide) last
  rename_i hline
  split at hc
  · obtain rfl := Option.some.inj hc
    exact Token.endsBefore_of_mem (by decide) last
  rename_i hspace
  obtain rfl : d = c := Option.some.inj hc
  have hmark : ∀ {v : String}, next.isPunctuation v = true → v.toList = d :: ds := by
    intro v hv
    simp only [Token.isPunctuation, Bool.and_eq_true, beq_iff_eq] at hv
    rw [← hv.2, ← hd, Token.spelling_of_ne (by simp [hv.1])]
  simp only [needsSpace] at hspace
  split at hspace
  · -- an opening bracket or a point
    rename_i hlast
    have hk : last.kind = .punctuation := by
      simp only [Token.isPunctuation, Bool.or_eq_true, Bool.and_eq_true, beq_iff_eq] at hlast
      rcases hlast with (h | h) | h <;> exact h.1
    simp only [Token.endsBefore, hk, Bool.not_eq_true', ← Bool.not_eq_true, Bool.and_eq_true,
      beq_iff_eq]
    rintro ⟨hpoint, hd⟩
    obtain ⟨hnumber, hfirst⟩ := hdigit hd
    simp [Token.runsInto, Token.isPunctuation, hk, hpoint, hnumber, hfirst] at hinto
    exact hline hinto
  split at hspace
  · -- a closing bracket or a divider
    rename_i hclose
    simp only [Bool.or_eq_true] at hclose
    refine Token.endsBefore_of_mem ?_ last
    rcases hclose with (((h | h) | h) | h) | h <;>
    · obtain ⟨rfl, -⟩ := List.cons.inj (hmark h)
      decide
  split at hspace
  · rename_i hpoint
    obtain ⟨rfl, -⟩ := List.cons.inj (hmark hpoint)
    exact Token.endsBefore_of_not_part rfl (by decide) fun hk =>
      absurd hk (by simpa using hspace)
  split at hspace
  · rename_i hopen
    simp only [Bool.or_eq_true] at hopen
    refine Token.endsBefore_of_mem ?_ last
    rcases hopen with h | h <;>
    · obtain ⟨rfl, -⟩ := List.cons.inj (hmark h)
      decide
  split at hspace
  · rename_i hnegation
    refine Token.endsBefore_of_negation (by simpa using hnegation) fun h => ?_
    exact hspace (by simpa using heq h)
  · exact absurd rfl hspace

end Printer

theorem Gap.read_between {c : Cursor} {lineBreak : Bool} {blanks rest : List Char}
    (h : c.rest = (if lineBreak then ['\n'] else []) ++ (blanks ++ rest))
    (hb : ∀ ch ∈ blanks, isBlank ch = true) (hs : startsToken rest = true) :
    ∃ later, read c = { cursor := later, lineBreak } ∧ later.rest = rest := by
  have hblanks : ∀ c' : Cursor, c'.rest = blanks ++ rest →
      read c' = { cursor := c'.move blanks.length } ∧ (c'.move blanks.length).rest = rest := by
    intro c' hc'
    have hrest := Cursor.rest_move_length hc'
    exact ⟨by rw [read_blanks hc' hb, read_of_startsToken (by rw [hrest]; exact hs)], hrest⟩
  cases lineBreak with
  | false => exact ⟨_, hblanks c h⟩
  | true =>
    have hline : c.rest = '\n' :: (blanks ++ rest) := h
    obtain ⟨hread, hrest⟩ := hblanks c.step (by rw [Cursor.rest_step, hline, List.tail_cons])
    refine ⟨_, ?_, hrest⟩
    rw [read_lineBreak hline rfl, hread]

namespace Lexer

variable [IdentifierTable] {l : Lexer} {lineBreak : Bool} {blanks rest : List Char}

theorem next_of_read {kind : TokenKind} {length : Nat} {value : String}
    (h : l.cursor.rest = (if lineBreak then ['\n'] else []) ++ (blanks ++ rest))
    (hb : ∀ ch ∈ blanks, isBlank ch = true) (hs : startsToken rest = true)
    (hcut : Cut.read l.regexpAllowed rest = .token kind length value) :
    ∃ u, l.next.1 = .ok u ∧ u.kind = kind ∧ u.value = value ∧ u.lineBreak = lineBreak ∧
      l.next.2.cursor.rest = rest.drop length ∧ l.next.2.regexpAllowed = !u.endsValue := by
  obtain ⟨start, hgap, hrest⟩ := Gap.read_between h hb hs
  simp only [next, hgap, hrest, hcut, Bool.false_eq_true, if_false, Cursor.rest_move]
  exact ⟨_, rfl, rfl, rfl, rfl, trivial, rfl⟩

theorem next_of_spelling {t : Token} (hl : Lexical t.kind t.value) (he : t.isEof = false)
    (hf : t.fits l.regexpAllowed = true) (hfree : t.Free rest)
    (h : l.cursor.rest =
      (if lineBreak then ['\n'] else []) ++ (blanks ++ ((Printer.spelling t).toList ++ rest)))
    (hb : ∀ ch ∈ blanks, isBlank ch = true) :
    ∃ u, l.next.1 = .ok u ∧ u.kind = t.kind ∧ u.value = t.reread.value ∧
      u.lineBreak = lineBreak ∧ l.next.2.cursor.rest = rest ∧
      l.next.2.regexpAllowed = !t.endsValue := by
  have heof : t.kind ≠ .eof := by simpa [Token.isEof] using he
  have hcut := t.cut_spelling hl heof hf hfree
  have hs := t.startsToken_spelling hl heof hfree
  obtain ⟨u, hu, hkind, hvalue, hline, hrest, hallowed⟩ := next_of_read h hb hs hcut
  refine ⟨u, hu, hkind, hvalue, hline, by rw [hrest, List.drop_left], ?_⟩
  rw [hallowed, ← t.reread_endsValue]
  simp only [Token.endsValue, Token.isClosing, Token.isPunctuation, Token.reread_kind, hkind,
    hvalue]

theorem next_of_point {d : Char} (hd : isDigit d = true)
    (h : l.cursor.rest = (if lineBreak then ['\n'] else []) ++ (blanks ++ '.' :: d :: rest))
    (hb : ∀ ch ∈ blanks, isBlank ch = true) :
    ∃ u, l.next.1 = .ok u ∧ u.kind = .number := by
  have hs : startsToken ('.' :: d :: rest) = true := startsToken_cons (by decide) (by decide) _
  have hcut : Cut.read l.regexpAllowed ('.' :: d :: rest) =
      Cut.spelled .number ('.' :: d :: rest) (Literal.numberLength ('.' :: d :: rest)) := by
    have hpoint : isPunctuationMark '.' = false := by decide
    simp [Cut.read, hpoint, hd]
  obtain ⟨u, hu, hkind, -⟩ := next_of_read h hb hs hcut
  exact ⟨u, hu, hkind⟩

end Lexer

namespace Lexer

variable [IdentifierTable] {l : Lexer} {t : Token} {ts : List Token}

theorem Scans.uncons {u e : Token} {us : List Token} (h : l.Scans (u :: us ++ [e])) :
    l.next.1 = .ok u ∧ l.next.2.Scans (us ++ [e]) := by
  rw [List.cons_append] at h
  generalize hvs : us ++ [e] = vs at h
  cases h with
  | eof => simp at hvs
  | token next _ tail => exact ⟨next, hvs ▸ tail⟩

theorem Scans.isEof_last {e : Token} {us : List Token} (h : l.Scans (us ++ [e])) :
    e.isEof = true := by
  induction us generalizing l with
  | nil =>
    cases h with
    | eof _ eof => exact eof
    | token _ _ tail => cases tail
  | cons u us ih => exact ih h.uncons.2

/-- Scanning gives tokens like these, with these line breaks in front of them, and comes to
the end of the input behind them. -/
def ComesBack (l : Lexer) (ts : List Token) (lineBreaks : List Bool) : Prop :=
  ∃ us e, l.Scans (us ++ [e]) ∧ us.map Token.bare = ts.map Token.bare ∧
    us.map (·.lineBreak) = lineBreaks

theorem comesBack_nil (h : l.cursor.rest = []) : l.ComesBack [] [] :=
  ⟨[], _, .eof (next_of_nil h) rfl, rfl, rfl⟩

theorem comesBack_cons {u : Token} {lineBreak : Bool} {lineBreaks : List Bool}
    (h : l.next.1 = .ok u) (he : t.isEof = false) :
    l.ComesBack (t :: ts) (lineBreak :: lineBreaks) ↔
      u.bare = t.bare ∧ u.lineBreak = lineBreak ∧ l.next.2.ComesBack ts lineBreaks := by
  constructor
  · rintro ⟨us, e, hscans, hbare, hlines⟩
    cases us with
    | nil => cases hbare
    | cons v us =>
      obtain ⟨hv, hbares⟩ := List.cons.inj hbare
      obtain ⟨hline, hlater⟩ := List.cons.inj hlines
      obtain ⟨hnext, htail⟩ := hscans.uncons
      rw [h] at hnext
      cases hnext
      exact ⟨hv, hline, us, e, htail, hbares, hlater⟩
  · rintro ⟨hu, rfl, us, e, hscans, hbare, hlines⟩
    have hproper : u.isEof = false := by
      rw [Token.bare_eq_bare_iff] at hu
      rwa [Token.isEof, hu.1]
    refine ⟨u :: us, e, .token h hproper hscans, ?_, ?_⟩
    · rw [List.map_cons, List.map_cons, hu, hbare]
    · rw [List.map_cons, hlines]

omit [IdentifierTable] in
theorem bare_eq_bare_iff {u : Token} (hkind : u.kind = t.kind)
    (hvalue : u.value = t.reread.value) : u.bare = t.bare ↔ ¬ t.zeroBeforeDigit := by
  rw [Token.bare_eq_bare_iff, hvalue, Token.reread_value_eq_iff]
  exact and_iff_right hkind

/-- A point that runs into a number is scanned as its beginning, whatever comes of the rest. -/
theorem not_comesBack_of_runsInto {indentation : String} {level depth : Nat} {v : Token}
    {vs : List (Nat × Token)} {lineBreak : Bool} {blanks : List Char} {lineBreaks : List Bool}
    (hinto : t.runsInto v = true) (ht : t.isEof = false) (hb : ∀ ch ∈ blanks, isBlank ch = true)
    (h : l.cursor.rest = (if lineBreak then ['\n'] else []) ++ (blanks ++
      ((Printer.spelling t).toList ++
        Piece.chars indentation (Printer.tokensAfter level t ((depth, v) :: vs))))) :
    ¬ l.ComesBack (t :: ts) (lineBreak :: lineBreaks) := by
  simp only [Token.runsInto, Bool.and_eq_true, Bool.not_eq_true', beq_iff_eq] at hinto
  obtain ⟨⟨⟨hpoint, hnumber⟩, hfirst⟩, hsame⟩ := hinto
  obtain ⟨d, hd, hdigit⟩ := (Option.any_eq_true _ _).1 hfirst
  obtain ⟨ds, hvalue⟩ := List.head?_eq_some_iff.1 hd
  rw [Printer.chars_point hpoint hsame, Token.spelling_of_ne (by simp [hnumber]), hvalue] at h
  obtain ⟨u, hu, hkind⟩ := next_of_point hdigit h hb
  rw [comesBack_cons hu ht]
  rintro ⟨hbare, -⟩
  rw [Token.bare_eq_bare_iff, hkind] at hbare
  simp [Token.isPunctuation, ← hbare.1] at hpoint

/-- Tokens that are written one behind the other come back unless a point runs into a number
or a string reads as another. -/
theorem comesBack_iff {indentation : String} (hi : ∀ ch ∈ indentation.toList, isBlank ch = true)
    {level : Nat} {ts : List (Nat × Token)} (hn : Neighbours (t :: ts.map Prod.snd))
    (hf : t.fits l.regexpAllowed = true) {lineBreak : Bool} {blanks : List Char}
    (hb : ∀ ch ∈ blanks, isBlank ch = true)
    (h : l.cursor.rest = (if lineBreak then ['\n'] else []) ++ (blanks ++
      Piece.chars indentation (.word (Printer.spelling t) :: Printer.tokensAfter level t ts))) :
    l.ComesBack (t :: ts.map Prod.snd) (lineBreak :: ts.map (·.2.lineBreak)) ↔
      (∀ u ∈ t :: ts.map Prod.snd, ¬ u.zeroBeforeDigit) ∧
        (t :: ts.map Prod.snd).IsChain fun t u => t.runsInto u = false := by
  rw [Piece.chars_word] at h
  induction ts generalizing l t lineBreak blanks with
  | nil =>
    have hlex := hn.lexical t List.mem_cons_self
    have ht := hn.proper t List.mem_cons_self
    obtain ⟨u, hu, hkind, hvalue, hline, hrest, -⟩ :=
      next_of_spelling hlex ht hf t.free_nil h hb
    have hend := comesBack_nil hrest
    rw [List.map_nil, List.map_nil, comesBack_cons hu ht, bare_eq_bare_iff hkind hvalue]
    simp [hline, hend]
  | cons v ts ih =>
    obtain ⟨depth, v⟩ := v
    obtain ⟨hlex, hlexs⟩ := List.forall_mem_cons.1 hn.lexical
    obtain ⟨ht, hts⟩ := List.forall_mem_cons.1 hn.proper
    have hlexv : Lexical v.kind v.value := hlexs v List.mem_cons_self
    have hv : v.isEof = false := hts v List.mem_cons_self
    have hfits : v.fits (!t.endsValue) = true := (List.isChain_cons_cons.1 hn.fits).1
    rw [List.map_cons, List.map_cons, List.forall_mem_cons, List.isChain_cons_cons]
    cases hinto : t.runsInto v with
    | false =>
      obtain ⟨u, hu, hkind, hvalue, hline, hrest, hallowed⟩ :=
        next_of_spelling hlex ht hf (Printer.free_gap hlexv hv hinto) h hb
      obtain ⟨blanks', hb', hgap⟩ := Printer.exists_blanks hi level t (depth, v)
      rw [hgap, Piece.chars_word] at hrest
      rw [← hallowed] at hfits
      rw [comesBack_cons hu ht, bare_eq_bare_iff hkind hvalue, ih hn.tail hfits hb' hrest]
      simp only [hline, true_and, and_assoc]
    | true =>
      constructor
      · intro hback
        exact absurd hback (not_comesBack_of_runsInto hinto ht hb h)
      · rintro ⟨-, hnot, -⟩
        cases hnot

end Lexer

/-! ## Groups -/

mutual
theorem Printer.leveled_tokens (depth : Nat) :
    ∀ tree : TokenTree, (leveled depth tree).map Prod.snd = tree.tokens
  | .leaf t => rfl
  | .group opener trees closer => by
    rw [leveled, TokenTree.tokens, List.map_cons, List.map_append, leveledAll_tokens _ trees]
    rfl

theorem Printer.leveledAll_tokens (depth : Nat) :
    ∀ trees : List TokenTree, (leveledAll depth trees).map Prod.snd = TokenTree.tokensOf trees
  | [] => rfl
  | tree :: trees => by
    rw [leveledAll, TokenTree.tokensOf, List.map_append, leveled_tokens depth tree,
      leveledAll_tokens depth trees]
end

theorem Token.bracket_of_isOpening {t : Token} (h : t.isOpening = true) :
    t.kind = .punctuation ∧ ∃ c ∈ ['(', '[', '\x7b'], t.value = String.ofList [c] := by
  simp only [isOpening, isPunctuation, Bool.or_eq_true, Bool.and_eq_true, beq_iff_eq] at h
  rcases h with (⟨hk, hv⟩ | ⟨hk, hv⟩) | ⟨hk, hv⟩
  · exact ⟨hk, '(', by decide, hv⟩
  · exact ⟨hk, '[', by decide, hv⟩
  · exact ⟨hk, '\x7b', by decide, hv⟩

theorem Lexer.lineBreak_of_startsToken [IdentifierTable] {l : Lexer} {u : Token}
    (hs : startsToken l.cursor.rest = true) (h : l.next.1 = .ok u) : u.lineBreak = false := by
  simp only [next, Gap.read_of_startsToken hs, Bool.false_eq_true, if_false] at h
  split at h
  · cases h
    rfl
  · cases h

/-- Of a text that begins with a token only the line breaks behind that token count. -/
theorem Lexer.comesBack_ofText [IdentifierTable] {text : String} {t : Token} {ts : List Token}
    {lineBreaks : List Bool} (hs : startsToken (ofText text).cursor.rest = true) :
    (ofText text).ComesBack (t :: ts) (false :: lineBreaks) ↔
      ∃ us e, Scan.ofText text = { tokens := us ++ [e] } ∧ e.isEof = true ∧
        us.map Token.bare = (t :: ts).map Token.bare ∧ us.tail.map (·.lineBreak) = lineBreaks := by
  constructor
  · rintro ⟨us, e, hscans, hbare, hlines⟩
    refine ⟨us, e, hscans.ofItems, hscans.isEof_last, hbare, ?_⟩
    rw [List.map_tail, hlines, List.tail_cons]
  · rintro ⟨us, e, hscan, -, hbare, hlines⟩
    have hscans : (ofText text).Scans (Scan.ofText text).tokens :=
      scans_of_error_eq_none (congrArg Scan.error hscan)
    rw [hscan] at hscans
    refine ⟨us, e, hscans, hbare, ?_⟩
    cases us with
    | nil => cases hbare
    | cons u us =>
      rw [List.map_cons, lineBreak_of_startsToken hs hscans.uncons.1, ← hlines, List.tail_cons]

theorem Piece.ofText_of_isOpening {indentation : String} {t : Token} (ht : t.isOpening = true)
    (ps : List Piece) :
    (Lexer.ofText (render indentation (.word (Printer.spelling t) :: ps))).cursor.rest =
        chars indentation (.word (Printer.spelling t) :: ps) ∧
      startsToken (chars indentation (.word (Printer.spelling t) :: ps)) = true := by
  obtain ⟨hk, c, hc, hv⟩ := Token.bracket_of_isOpening ht
  rw [Lexer.ofText_rest, toList_render, chars_word, Token.spelling_of_ne (by simp [hk]), hv,
    String.toList_ofList, List.singleton_append]
  simp only [List.mem_cons, List.not_mem_nil, or_false] at hc
  rcases hc with rfl | rfl | rfl
  · exact ⟨rfl, startsToken_cons (by decide) (by decide) _⟩
  · exact ⟨rfl, startsToken_cons (by decide) (by decide) _⟩
  · exact ⟨rfl, startsToken_cons (by decide) (by decide) _⟩

/-- A group that is read anywhere in a text and written out again is scanned as the tokens that
it has, on lines of their own where they were, if and only if no point in it runs into a number
and no string in it has a zero character before a digit. -/
theorem TokenStream.group_reemitted_iff [IdentifierTable] {text : String} {os : List Operation}
    {g : TokenTree} {s' : TokenStream} (h : group ((ofFeed (.ofText text)).after os) = .ok g s') :
    (∃ us e, Scan.ofText (Piece.render ({} : PrintOptions).indent (Printer.trees 0 [g])) =
          { tokens := us ++ [e] } ∧ e.isEof = true ∧
        us.map Token.bare = g.tokens.map Token.bare ∧
        us.tail.map (·.lineBreak) = g.tokens.tail.map (·.lineBreak)) ↔
      (∀ t ∈ g.tokens, ¬ t.zeroBeforeDigit) ∧
        g.tokens.IsChain fun t u => t.runsInto u = false := by
  obtain ⟨hgroup, hneighbours⟩ := neighbours_of_group h
  have hopening := TokenTree.isOpening_first hgroup
  obtain ⟨ts, hts⟩ : ∃ ts, Printer.leveled 0 g = (0, g.first) :: ts := by
    cases g <;> exact ⟨_, rfl⟩
  have htokens : g.tokens = g.first :: ts.map Prod.snd := by
    rw [← Printer.leveled_tokens 0 g, hts]
    rfl
  have hpieces : Printer.trees 0 [g] =
      .word (Printer.spelling g.first) :: Printer.tokensAfter 0 g.first ts := by
    rw [Printer.trees, Printer.leveledAll, Printer.leveledAll, List.append_nil, hts,
      Printer.tokens]
  have hfits : ∀ allowed, g.first.fits allowed = true := by
    intro allowed
    simp [Token.fits, (Token.bracket_of_isOpening hopening).1]
  have hblank : ∀ ch ∈ ({} : PrintOptions).indent.toList, isBlank ch = true :=
    forall_mem_of_all (by decide +kernel)
  generalize ({} : PrintOptions).indent = indentation at hblank ⊢
  obtain ⟨hrest, hstarts⟩ :=
    @Piece.ofText_of_isOpening indentation g.first hopening (Printer.tokensAfter 0 g.first ts)
  rw [← hrest] at hstarts
  rw [htokens] at hneighbours ⊢
  have hback := @Lexer.comesBack_iff _ _ g.first indentation hblank 0 ts hneighbours (hfits _) false
    [] (List.forall_mem_nil _) hrest
  rw [hpieces, ← hback, Lexer.comesBack_ofText hstarts, List.tail_cons, List.map_map]
  rfl

/-- A group with lines of its own, a semicolon that was put in, a point behind a number and a
zero character before a quotation mark. -/
theorem TokenStream.group_reemitted_iff_lines :
    ∃ g s', group ((ofFeed (.ofText
        "f (\x7b return\n\x7d (1. .b, !/c/g)\n, \"\\0\\\"\")")).after [.ask .advance]) = .ok g s' ∧
      Piece.render ({} : PrintOptions).indent (Printer.trees 0 [g]) =
        "(\x7b return;\n\x7d (1. .b, !/c/g)\n, \"\\0\\\"\")" ∧
      ((∃ us e, Scan.ofText (Piece.render ({} : PrintOptions).indent (Printer.trees 0 [g])) =
            { tokens := us ++ [e] } ∧ e.isEof = true ∧
          us.map Token.bare = g.tokens.map Token.bare ∧
          us.tail.map (·.lineBreak) = g.tokens.tail.map (·.lineBreak)) ↔
        (∀ t ∈ g.tokens, ¬ t.zeroBeforeDigit) ∧
          g.tokens.IsChain fun t u => t.runsInto u = false) := by
  have hfull : (match group ((ofFeed (.ofText
        "f (\x7b return\n\x7d (1. .b, !/c/g)\n, \"\\0\\\"\")")).after [.ask .advance]) with
      | .ok g _ => Piece.render ({} : PrintOptions).indent (Printer.trees 0 [g]) ==
          "(\x7b return;\n\x7d (1. .b, !/c/g)\n, \"\\0\\\"\")"
      | .error _ _ => false) = true := by
    decide +kernel
  cases hrun : group ((ofFeed (.ofText
      "f (\x7b return\n\x7d (1. .b, !/c/g)\n, \"\\0\\\"\")")).after [.ask .advance]) with
  | error e s' =>
    rw [hrun] at hfull
    cases hfull
  | ok g s' =>
    rw [hrun] at hfull
    exact ⟨g, s', rfl, eq_of_beq hfull, group_reemitted_iff hrun⟩

end ScriptOutline
