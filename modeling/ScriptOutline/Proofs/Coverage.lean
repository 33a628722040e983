/-
Scanning loses nothing of a text.

What scanning takes notice of are marks, each a comment or a token.  `Covered`
says that characters consist of marks with white space between them, each mark
at its own place, and `covered_scans` that scanning to the end of a text leaves
it covered.  `scan_covers_text` reads off what that means for spans.

A token stands where its first character stood when the gap before it had been
passed, so one lemma for the gap and one for the cut behind it are enough.
-/
import ScriptOutline.Token.Feed

namespace ScriptOutline

open Text

namespace Cursor

theorem offset_step (c : Cursor) : c.step.offset = c.offset + byteLength (c.rest.take 1) := by
  unfold step
  split
  · simp_all [byteLength]
  · simp_all [byteLength]

theorem offset_move (c : Cursor) (n : Nat) :
    (c.move n).offset = c.offset + byteLength (c.rest.take n) := by
  induction n generalizing c with
  | zero => simp [move, byteLength]
  | succ n ih =>
    rw [move, ih, offset_step, rest_step]
    cases c.rest with
    | nil => simp [byteLength]
    | cons ch rest => simp [byteLength, Nat.add_assoc]

theorem move_add (c : Cursor) (m n : Nat) : c.move (m + n) = (c.move m).move n := by
  induction m generalizing c with
  | zero => rw [Nat.zero_add, move]
  | succ m ih => rw [Nat.succ_add, move, move, ih]

theorem rest_move_length {c : Cursor} {body tail : List Char} (h : c.rest = body ++ tail) :
    (c.move body.length).rest = tail := by
  rw [rest_move, h, List.drop_left]

theorem offset_move_length {c : Cursor} {body tail : List Char} (h : c.rest = body ++ tail) :
    (c.move body.length).offset = c.offset + byteLength body := by
  rw [offset_move, h, List.take_left]

end Cursor

theorem Text.byteLength_pos {cs : List Char} (h : cs ≠ []) : 0 < byteLength cs := by
  cases cs with
  | nil => exact absurd rfl h
  | cons c cs =>
    have := c.utf8Size_pos
    simp only [byteLength]
    omega

namespace Literal

theorem runLength_pos {p : Char → Bool} {c : Char} {cs : List Char} (h : p c = true) :
    0 < runLength p (c :: cs) := by
  simp [runLength, h]

theorem decimalLength_pos {c : Char} {cs : List Char}
    (h : isDigit c = true ∨ c = '.') : 0 < decimalLength (c :: cs) := by
  rcases h with h | h
  · have : 0 < runLength isDigitOrBar (c :: cs) := runLength_pos (by simp [isDigitOrBar, h])
    simp only [decimalLength]
    omega
  · subst h
    have hw : runLength isDigitOrBar ('.' :: cs) = 0 := rfl
    simp only [decimalLength, hw, List.drop_zero, fractionLength]
    omega

theorem numberLength_pos {c : Char} {cs : List Char}
    (h : isDigit c = true ∨ c = '.') : 0 < numberLength (c :: cs) := by
  unfold numberLength
  split
  · split
    · omega
    · rename_i hcs _
      rw [← hcs]
      exact decimalLength_pos h
  · exact decimalLength_pos h

end Literal

theorem length_pos_of_mem_signOperators {sign : String} (h : sign ∈ signOperators) :
    0 < sign.length := by
  have hall : ∀ s ∈ signOperators, 0 < s.length := by decide
  exact hall sign h

namespace Cut

/-- What a token that is cut off has in common with the characters there. -/
def Fits (cs : List Char) (kind : TokenKind) (length : Nat) (value : String) : Prop :=
  (kind = .eof ∧ cs = [] ∧ length = 0 ∧ value = "") ∨
  (kind ≠ .eof ∧ cs ≠ [] ∧ 0 < length ∧ (kind ≠ .string → value.toList = cs.take length))

theorem fits_spelled {cs : List Char} {kind : TokenKind} {n : Nat} (hk : kind ≠ .eof)
    (hcs : cs ≠ []) (hn : 0 < n) : Fits cs kind n (String.ofList (cs.take n)) :=
  .inr ⟨hk, hcs, hn, fun _ => String.toList_ofList⟩

theorem wordKind_ne_eof (word : String) : wordKind word ≠ .eof := by
  unfold wordKind
  repeat' split
  all_goals simp

theorem fits_read [IdentifierTable] {allowed : Bool} {cs : List Char} {kind : TokenKind}
    {length : Nat} {value : String} (h : read allowed cs = .token kind length value) :
    Fits cs kind length value := by
  cases cs with
  | nil =>
    simp only [read, token.injEq] at h
    obtain ⟨rfl, rfl, rfl⟩ := h
    exact .inl ⟨rfl, rfl, rfl, rfl⟩
  | cons c rest =>
    have hcs : c :: rest ≠ [] := List.cons_ne_nil c rest
    simp only [read] at h
    split at h
    · simp only [spelled, token.injEq] at h
      obtain ⟨rfl, rfl, rfl⟩ := h
      exact fits_spelled (by simp) hcs (by omega)
    split at h
    · rename_i hdot
      have hdot : c = '.' := by simpa using hdot
      split at h
      · simp only [spelled, token.injEq] at h
        obtain ⟨rfl, rfl, rfl⟩ := h
        exact fits_spelled (by simp) hcs (Literal.numberLength_pos (.inr hdot))
      · simp only [spelled, token.injEq] at h
        obtain ⟨rfl, rfl, rfl⟩ := h
        exact fits_spelled (by simp) hcs (by omega)
    split at h
    · simp only [string] at h
      split at h
      · simp only [token.injEq] at h
        obtain ⟨rfl, rfl, rfl⟩ := h
        exact .inr ⟨by simp, hcs, by omega, fun hk => absurd rfl hk⟩
      · cases h
    split at h
    · rename_i hd
      simp only [spelled, token.injEq] at h
      obtain ⟨rfl, rfl, rfl⟩ := h
      exact fits_spelled (by simp) hcs (Literal.numberLength_pos (.inl hd))
    split at h
    · simp only [regexp] at h
      split at h
      · rename_i hc
        simp only [spelled, token.injEq] at h
        obtain ⟨rfl, rfl, rfl⟩ := h
        refine fits_spelled (by simp) hcs ?_
        simp only [Literal.regexp] at hc ⊢
        split at hc
        · rename_i hb
          simp only [hb, if_true]
          omega
        · rename_i hb
          exact absurd hc hb
      · cases h
    split at h
    · rename_i hs
      simp only [word, spelled, token.injEq] at h
      obtain ⟨rfl, rfl, rfl⟩ := h
      exact fits_spelled (wordKind_ne_eof _) hcs
        (Literal.runLength_pos (isIdentifierPart_of_start hs))
    split at h
    · rename_i sign hs
      simp only [token.injEq] at h
      obtain ⟨rfl, rfl, rfl⟩ := h
      refine .inr ⟨by simp, hcs, length_pos_of_mem_signOperators (List.mem_of_find?_eq_some hs),
        fun _ => ?_⟩
      have hp := List.find?_some hs
      rw [List.isPrefixOf_iff_prefix] at hp
      rw [← String.length_toList]
      exact (List.prefix_iff_eq_take.1 hp)
    · cases h

end Cut

/-! ## Marks -/

/-- What scanning takes notice of in a text. -/
inductive Mark where
  | comment (comment : Comment)
  | token (token : Token)

namespace Mark

def span : Mark → Span
  | comment c => c.location.span
  | token t => t.location.span

/-- The mark is made of the characters `body`, and `rest` follows.  A line
comment ends before the first line break and a block comment with the first
closing mark. -/
def Spells (body rest : List Char) : Mark → Prop
  | comment c =>
    match c.kind with
    | .line =>
      body = '/' :: '/' :: c.text.toList ∧ (∀ d ∈ c.text.toList, isLineBreak d = false) ∧
        ∀ d, rest.head? = some d → isLineBreak d = true
    | .block =>
      body = '/' :: '*' :: (c.text.toList ++ ['*', '/']) ∧ ¬ ['*', '/'] <:+: c.text.toList
  | token t => t.kind ≠ .string → t.value.toList = body

end Mark

def Token.marks (t : Token) : List Mark := t.comments.map .comment ++ [.token t]

/-- The characters from `offset` on consist of the marks, in order and each at
its place, and of white space. -/
inductive Covered : Nat → List Char → List Mark → Prop where
  | blank {offset : Nat} {cs : List Char} (space : ∀ c ∈ cs, isSpace c = true) :
      Covered offset cs []
  | mark {offset : Nat} {skip body rest : List Char} {m : Mark} {ms : List Mark}
      (space : ∀ c ∈ skip, isSpace c = true)
      (place : m.span = .between (offset + byteLength skip)
        (offset + byteLength skip + byteLength body))
      (spells : m.Spells body rest)
      (tail : Covered (offset + byteLength skip + byteLength body) rest ms) :
      Covered offset (skip ++ (body ++ rest)) (m :: ms)

namespace Covered

theorem behind_space {offset : Nat} {c : Char} {cs : List Char} {ms : List Mark}
    (hc : isSpace c = true) (h : Covered (offset + c.utf8Size) cs ms) :
    Covered offset (c :: cs) ms := by
  cases h with
  | blank space =>
    refine .blank fun d hd => ?_
    rcases List.mem_cons.1 hd with rfl | hd
    · exact hc
    · exact space d hd
  | @mark _ skip body rest m ms space place spells tail =>
    have hoff : offset + c.utf8Size + byteLength skip = offset + byteLength (c :: skip) := by
      simp only [byteLength]
      omega
    rw [hoff] at place tail
    show Covered offset ((c :: skip) ++ (body ++ rest)) (m :: ms)
    refine .mark (fun d hd => ?_) place spells tail
    rcases List.mem_cons.1 hd with rfl | hd
    · exact hc
    · exact space d hd

theorem behind_mark {offset : Nat} {body rest : List Char} {m : Mark} {ms : List Mark}
    (place : m.span = .between offset (offset + byteLength body)) (spells : m.Spells body rest)
    (tail : Covered (offset + byteLength body) rest ms) :
    Covered offset (body ++ rest) (m :: ms) := by
  show Covered offset ([] ++ (body ++ rest)) (m :: ms)
  refine .mark (by simp) ?_ spells ?_
  · simpa [byteLength] using place
  · simpa [byteLength] using tail

end Covered

theorem not_infix_of_closeComment? {cs text rest : List Char}
    (h : closeComment? cs = some (text, rest)) : ¬ ['*', '/'] <:+: text := by
  fun_induction closeComment? cs generalizing text with
  | case1 => simp at h
  | case2 cs =>
    simp only [Option.some.injEq, Prod.mk.injEq] at h
    obtain ⟨rfl, -⟩ := h
    simp
  | case3 c cs hne ih =>
    obtain ⟨⟨t, r⟩, hr, he⟩ := Option.map_eq_some_iff.1 h
    simp only [Prod.mk.injEq] at he
    obtain ⟨rfl, rfl⟩ := he
    rw [List.infix_cons_iff]
    rintro (hp | hi)
    · obtain ⟨u, hu⟩ := hp
      simp only [List.cons_append, List.nil_append, List.cons.injEq] at hu
      obtain ⟨rfl, hu⟩ := hu
      have := eq_of_closeComment? hr
      rw [← hu] at this
      exact hne _ rfl this
    · exact ih hr hi

namespace Gap

/-- A comment in front of a covered text. -/
theorem covered_comment {c : Cursor} {body tail : List Char} {comment : Comment} {ms : List Mark}
    (hrest : c.rest = body ++ tail)
    (hplace : comment.location = c.locate (c.move body.length))
    (hspells : (Mark.comment comment).Spells body tail)
    (h : Covered (c.move body.length).offset (c.move body.length).rest ms) :
    Covered c.offset c.rest (.comment comment :: ms) := by
  rw [Cursor.rest_move_length hrest, Cursor.offset_move_length hrest] at h
  rw [hrest]
  refine .behind_mark ?_ hspells h
  rw [Mark.span, hplace, Cursor.locate, Cursor.offset_move_length hrest]

/-- What covers the text behind a closed gap covers the text from the gap on,
with the comments of the gap in front. -/
theorem covered_read {c : Cursor} {ms : List Mark} (hu : (read c).unclosed = false)
    (h : Covered (read c).cursor.offset (read c).cursor.rest ms) :
    Covered c.offset c.rest ((read c).comments.map .comment ++ ms) := by
  fun_induction read c with
  | case1 c body hrest text after ih =>
    have hbody : c.rest = ('/' :: '/' :: text) ++ body.dropWhile (!isLineBreak ·) := by
      rw [hrest, List.cons_append, List.cons_append, List.takeWhile_append_dropWhile]
    have hlen : after = c.move ('/' :: '/' :: text).length := by
      show c.move (2 + text.length) = _
      rw [List.length_cons, List.length_cons, Nat.add_comm]
    refine covered_comment hbody (by rw [← hlen]) ⟨?_, ?_, ?_⟩ ?_
    · rw [String.toList_ofList]
    · intro d hd
      rw [String.toList_ofList] at hd
      simpa using List.all_eq_true.1 List.all_takeWhile d hd
    · intro d hd
      have := List.head?_dropWhile_not (!isLineBreak ·) body
      rw [hd] at this
      simpa using this
    · rw [← hlen]
      exact ih hu h
  | case2 c body hrest text rest hc after ih =>
    have hbody : c.rest = ('/' :: '*' :: (text ++ ['*', '/'])) ++ rest := by
      rw [hrest, eq_of_closeComment? hc]
      simp
    have hlen : after = c.move ('/' :: '*' :: (text ++ ['*', '/'])).length := by
      show c.move (4 + text.length) = _
      congr 1
      simp only [List.length_cons, List.length_append, List.length_nil]
      omega
    refine covered_comment hbody (by rw [← hlen]) ⟨?_, ?_⟩ ?_
    · rw [String.toList_ofList]
    · rw [String.toList_ofList]
      exact not_infix_of_closeComment? hc
    · rw [← hlen]
      exact ih hu h
  | case3 => simp at hu
  | case4 c ch rest _ _ hrest hb _ ih =>
    have hstep := ih hu h
    rw [Cursor.rest_step, Cursor.offset_step, hrest] at hstep
    rw [hrest]
    refine .behind_space (by simp [isSpace, hb]) ?_
    simpa [byteLength] using hstep
  | case5 c ch rest _ _ hrest hb hw ih =>
    have hstep := ih hu h
    rw [Cursor.rest_step, Cursor.offset_step, hrest] at hstep
    rw [hrest]
    refine .behind_space (by simp [isSpace, hw]) ?_
    simpa [byteLength] using hstep
  | case6 => simpa using h
  | case7 => simpa using h

theorem offset_le_read (c : Cursor) : c.offset ≤ (read c).cursor.offset := by
  fun_induction read c with
  | case1 c body _ text after ih =>
    have h : c.offset ≤ after.offset := by
      rw [Cursor.offset_move]
      omega
    exact Nat.le_trans h ih
  | case2 c body _ text rest _ after ih =>
    have h : c.offset ≤ after.offset := by
      rw [Cursor.offset_move]
      omega
    exact Nat.le_trans h ih
  | case3 => exact Nat.le_refl _
  | case4 c ch rest _ _ _ _ _ ih =>
    rw [Cursor.offset_step] at ih
    exact Nat.le_trans (Nat.le_add_right _ _) ih
  | case5 c ch rest _ _ _ _ _ ih =>
    rw [Cursor.offset_step] at ih
    exact Nat.le_trans (Nat.le_add_right _ _) ih
  | case6 => exact Nat.le_refl _
  | case7 => exact Nat.le_refl _

end Gap

/-! ## Scanning to the end -/

namespace Lexer

variable [IdentifierTable]

/-- What a scan that gives a token has found: a closed gap, and a token cut off
behind it. -/
theorem next_eq_ok {l : Lexer} {t : Token} (h : l.next.1 = .ok t) :
    ∃ length, (Gap.read l.cursor).unclosed = false ∧
      Cut.Fits (Gap.read l.cursor).cursor.rest t.kind length t.value ∧
      t.location = (Gap.read l.cursor).cursor.locate ((Gap.read l.cursor).cursor.move length) ∧
      t.comments = (Gap.read l.cursor).comments ∧
      l.next.2 =
        { cursor := (Gap.read l.cursor).cursor.move length, regexpAllowed := !t.endsValue } := by
  simp only [next] at h ⊢
  cases hu : (Gap.read l.cursor).unclosed with
  | true => simp [hu] at h
  | false =>
    simp only [hu, Bool.false_eq_true, if_false] at h ⊢
    cases hcut : Cut.read l.regexpAllowed (Gap.read l.cursor).cursor.rest with
    | fault fault length passed => simp [hcut] at h
    | token kind length value =>
      simp only [hcut, Except.ok.injEq] at h ⊢
      subst h
      exact ⟨length, trivial, Cut.fits_read hcut, rfl, rfl, rfl⟩

/-- What covers the text behind a token covers the text from its gap on, with
the marks of the token in front. -/
theorem covered_next {l : Lexer} {t : Token} {ms : List Mark} (h : l.next.1 = .ok t)
    (hc : Covered l.next.2.cursor.offset l.next.2.cursor.rest ms) :
    Covered l.cursor.offset l.cursor.rest (t.marks ++ ms) := by
  obtain ⟨length, hu, hfits, hloc, hcom, hcur⟩ := next_eq_ok h
  rw [Token.marks, hcom, List.append_assoc]
  refine Gap.covered_read hu ?_
  simp only [hcur, Cursor.rest_move, Cursor.offset_move] at hc
  generalize (Gap.read l.cursor).cursor = start at hfits hloc hc ⊢
  have hcut : start.rest.take length ++ start.rest.drop length = start.rest :=
    List.take_append_drop length start.rest
  rw [← hcut, List.singleton_append]
  refine .behind_mark ?_ (fun hk => ?_) hc
  · rw [Mark.span, hloc, Cursor.locate, Cursor.offset_move]
  · rcases hfits with ⟨-, he, hl, hv⟩ | ⟨-, -, -, hv⟩
    · rw [he, hv]
      simp
    · exact hv hk

/-- Scanning gives these tokens one after another, the last of which is the
first `eof`. -/
inductive Scans : Lexer → List Token → Prop where
  | eof {l : Lexer} {t : Token} (next : l.next.1 = .ok t) (eof : t.isEof = true) : Scans l [t]
  | token {l : Lexer} {t : Token} {ts : List Token} (next : l.next.1 = .ok t)
      (eof : t.isEof = false) (tail : Scans l.next.2 ts) : Scans l (t :: ts)

/-- A token stands behind the gap before it. -/
theorem offset_le_start {l : Lexer} {t : Token} (h : l.next.1 = .ok t) :
    l.cursor.offset ≤ t.location.span.start := by
  obtain ⟨length, -, -, hloc, -, -⟩ := next_eq_ok h
  rw [hloc]
  exact Gap.offset_le_read l.cursor

/-- Scanning goes on behind a token other than `eof`, which is not empty. -/
theorem start_lt_next {l : Lexer} {t : Token} (h : l.next.1 = .ok t) (ht : t.isEof = false) :
    t.location.span.start < l.next.2.cursor.offset := by
  obtain ⟨length, -, hfits, hloc, -, hnext⟩ := next_eq_ok h
  rw [hloc, hnext]
  simp only [Cursor.offset_move, Cursor.locate, Span.between]
  rcases hfits with ⟨hk, -⟩ | ⟨-, hne, hpos, -⟩
  · rw [Token.isEof, hk] at ht
    cases ht
  · refine Nat.lt_add_of_pos_right (byteLength_pos ?_)
    rw [Ne, List.take_eq_nil_iff]
    rintro (h0 | h0)
    · omega
    · exact hne h0

/-- A scan that gives a token other than `eof` consumes a character. -/
theorem offset_lt_next {l : Lexer} {t : Token} (h : l.next.1 = .ok t) (ht : t.isEof = false) :
    l.cursor.offset < l.next.2.cursor.offset :=
  Nat.lt_of_le_of_lt (offset_le_start h) (start_lt_next h ht)

/-- A scan that gives `eof` stands at the end of the text, and so do all scans
behind it. -/
theorem next_of_eof {l : Lexer} {t : Token} (h : l.next.1 = .ok t) (ht : t.isEof = true) :
    t.location.span = .empty l.cursor.reach ∧ l.next.2.cursor.rest = [] ∧
      l.next.2.next = (.ok { kind := .eof, location := t.location }, l.next.2) := by
  obtain ⟨length, -, hfits, hloc, -, hnext⟩ := next_eq_ok h
  have hreach := Gap.reach_read l.cursor
  rcases hfits with ⟨hk, hrest, hlen, -⟩ | ⟨hk, -⟩
  · generalize (Gap.read l.cursor).cursor = start at *
    subst hlen
    have hends : t.endsValue = false := by simp [Token.endsValue, hk]
    rw [hends] at hnext
    have hgap : Gap.read start = { cursor := start } := by
      rw [Gap.read]
      split <;> simp_all
    refine ⟨?_, by simp [hnext, Cursor.move, hrest], ?_⟩
    · rw [hloc, ← hreach, Cursor.reach, hrest]
      simp [Cursor.locate, Cursor.move, Span.between, Span.empty, byteLength]
    · rw [hnext]
      simp only [next, Cursor.move, hgap, hrest, Cut.read, hloc, Token.endsValue]
      rfl
  · rw [Token.isEof] at ht
    exact absurd (by simpa using ht) hk

theorem Scans.covered {l : Lexer} {ts : List Token} (h : Scans l ts) :
    Covered l.cursor.offset l.cursor.rest (ts.flatMap Token.marks) := by
  induction h with
  | @eof l t hn he =>
    rw [List.flatMap_singleton, ← List.append_nil t.marks]
    refine covered_next hn (.blank ?_)
    rw [(next_of_eof hn he).2.1]
    simp
  | @token l t ts hn _ _ ih =>
    rw [List.flatMap_cons]
    exact covered_next hn ih

theorem scans_of_error_eq_none {l : Lexer}
    (h : (Scan.ofItems (TokenFeed.ofLexer l).final (TokenFeed.ofLexer l).items).error = none) :
    Scans l (Scan.ofItems (TokenFeed.ofLexer l).final (TokenFeed.ofLexer l).items).tokens := by
  fun_induction TokenFeed.ofLexer l with
  | case1 l step hmove ih =>
    cases hn : l.next.1 with
    | error e => simp [TokenFeed.cons, step, hn, Scan.ofItems] at h
    | ok t =>
      cases he : t.isEof with
      | true =>
        simp only [TokenFeed.cons, step, Scan.ofItems, he, if_true]
        exact .eof hn he
      | false =>
        simp only [TokenFeed.cons, step, hn, Scan.ofItems, he, Bool.false_eq_true, if_false,
          Scan.cons] at h ⊢
        exact .token hn he (ih h)
  | case2 l step hstay =>
    cases hn : l.next.1 with
    | error e => simp [step, hn, Scan.ofItems] at h
    | ok t =>
      simp only [Scan.ofItems]
      -- the lexer stays where it is, so the token can only be `eof`
      cases he : t.isEof with
      | true => exact .eof hn he
      | false => exact absurd (offset_lt_next hn he) hstay

theorem Scans.ofItems {l : Lexer} {ts : List Token} (h : Scans l ts) :
    Scan.ofItems (TokenFeed.ofLexer l).final (TokenFeed.ofLexer l).items = { tokens := ts } := by
  induction h with
  | @eof l t hn he =>
    rw [TokenFeed.ofLexer]
    split
    · simp [TokenFeed.cons, hn, Scan.ofItems, he]
    · simp [hn, Scan.ofItems]
  | @token l t ts hn he _ ih =>
    rw [TokenFeed.ofLexer, if_pos (offset_lt_next hn he)]
    simp [TokenFeed.cons, hn, Scan.ofItems, he, ih, Scan.cons]

def after (l : Lexer) : Nat → Lexer
  | 0 => l
  | n + 1 => (l.after n).next.2

theorem reach_after (l : Lexer) (n : Nat) : (l.after n).cursor.reach = l.cursor.reach := by
  induction n with
  | zero => rfl
  | succ n ih => rw [after, reach_next, ih]

/-- Once `eof` has come, it comes for ever, at the same place. -/
theorem next_after_eof {l : Lexer} {t : Token} {n : Nat} (h : (l.after n).next.1 = .ok t)
    (ht : t.isEof = true) (k : Nat) :
    (l.after (n + 1 + k)).next =
      (.ok { kind := .eof, location := t.location }, l.after (n + 1)) := by
  have hfirst := (next_of_eof h ht).2.2
  have hstay : l.after (n + 1 + k) = l.after (n + 1) := by
    induction k with
    | zero => rfl
    | succ k ih =>
      rw [← Nat.add_assoc, after, ih, after, hfirst]
  rw [hstay]
  exact hfirst

end Lexer

namespace Covered

theorem le_start {offset : Nat} {cs : List Char} {ms : List Mark} (h : Covered offset cs ms) :
    ∀ m ∈ ms, offset ≤ m.span.start := by
  induction h with
  | blank => simp
  | @mark offset skip body rest m ms _ place _ _ ih =>
    intro m' hm'
    rcases List.mem_cons.1 hm' with rfl | hm'
    · rw [place]
      exact Nat.le_add_right offset (byteLength skip)
    · have := ih m' hm'
      omega

theorem pairwise {offset : Nat} {cs : List Char} {ms : List Mark} (h : Covered offset cs ms) :
    ms.Pairwise fun m m' => m.span.stop ≤ m'.span.start := by
  induction h with
  | blank => exact .nil
  | @mark offset skip body rest m ms _ place _ tail ih =>
    refine .cons (fun m' hm' => ?_) ih
    have := tail.le_start m' hm'
    rw [place, Span.stop_between (by omega)]
    exact this

theorem exists_body {offset : Nat} {cs : List Char} {ms : List Mark} (h : Covered offset cs ms) :
    ∀ m ∈ ms, ∃ pre body rest, cs = pre ++ (body ++ rest) ∧
      m.span.start = offset + byteLength pre ∧
      m.span.stop = offset + byteLength (pre ++ body) ∧ m.Spells body rest := by
  induction h with
  | blank => simp
  | @mark offset skip body rest m ms _ place spells _ ih =>
    intro m' hm'
    rcases List.mem_cons.1 hm' with rfl | hm'
    · refine ⟨skip, body, rest, rfl, ?_, ?_, spells⟩
      · rw [place]
        rfl
      · rw [place, Span.stop_between (by omega), byteLength_append]
        omega
    · obtain ⟨pre, body', rest', hrest, hstart, hstop, hspells⟩ := ih m' hm'
      refine ⟨skip ++ (body ++ pre), body', rest', by simp [hrest], ?_, ?_, hspells⟩
      · rw [hstart, byteLength_append, byteLength_append]
        omega
      · rw [hstop]
        simp only [byteLength_append]
        omega

theorem isSpace_outside {offset : Nat} {cs : List Char} {ms : List Mark}
    (h : Covered offset cs ms) {pre rest : List Char} {c : Char} (hcs : cs = pre ++ c :: rest)
    (hout : ∀ m ∈ ms, offset + byteLength pre < m.span.start ∨
      m.span.stop ≤ offset + byteLength pre) : isSpace c = true := by
  induction h generalizing pre with
  | blank space => exact space c (by simp [hcs])
  | @mark offset skip body tail m ms space place _ _ ih =>
    -- behind the mark
    have hbehind : ∀ b, tail = b ++ c :: rest → pre = skip ++ (body ++ b) → isSpace c = true := by
      intro b htail hpre
      refine ih htail fun m' hm' => ?_
      have := hout m' (List.mem_cons_of_mem m hm')
      rw [hpre, byteLength_append, byteLength_append] at this
      omega
    -- behind the white space before the mark, hence not inside the mark
    have hinside : ∀ a, body ++ tail = a ++ c :: rest → pre = skip ++ a → isSpace c = true := by
      intro a ha hpre
      rcases List.append_eq_append_iff.1 ha with ⟨b, hab, hb⟩ | ⟨b, hab, hb⟩
      · exact hbehind b hb (by rw [hpre, hab])
      · cases b with
        | nil => exact hbehind [] (by simpa using hb.symm) (by simp [hpre, hab])
        | cons d b =>
          obtain ⟨rfl, -⟩ := List.cons.inj hb
          have hm := hout m List.mem_cons_self
          have hpos := c.utf8Size_pos
          rw [place, Span.stop_between (by omega), hpre, hab] at hm
          simp only [Span.between, byteLength_append, byteLength] at hm
          omega
    rcases List.append_eq_append_iff.1 hcs with ⟨a, ha, hb⟩ | ⟨a, ha, hb⟩
    · exact hinside a hb ha
    · cases a with
      | nil => exact hinside [] (by simpa using hb.symm) (by simp [ha])
      | cons d a =>
        obtain ⟨rfl, -⟩ := List.cons.inj hb
        exact space c (by simp [ha])

end Covered

namespace Lexer

/-- The line for the system that a text may begin with. -/
theorem shebang_of_lt {cs pre rest : List Char} {c : Char} (hcs : cs = pre ++ c :: rest)
    (h : pre.length < shebangLength cs) :
    ['#', '!'] <+: cs ∧ ∀ d ∈ pre ++ [c], isLineBreak d = false := by
  unfold shebangLength at h
  split at h
  · rename_i line
    refine ⟨⟨line, rfl⟩, ?_⟩
    have hline : pre ++ [c] <+: '#' :: '!' :: line.takeWhile (!isLineBreak ·) := by
      have hpre : pre ++ [c] <+: '#' :: '!' :: line := ⟨rest, by simp [hcs]⟩
      have hwhile : '#' :: '!' :: line.takeWhile (!isLineBreak ·) <+: '#' :: '!' :: line :=
        List.cons_prefix_cons.2 ⟨rfl, List.cons_prefix_cons.2 ⟨rfl, List.takeWhile_prefix _⟩⟩
      refine List.prefix_of_prefix_length_le hpre hwhile ?_
      simp only [runLength] at h
      simp only [List.length_append, List.length_cons, List.length_nil]
      omega
    intro d hd
    have hmem := hline.subset hd
    simp only [List.mem_cons] at hmem
    rcases hmem with rfl | rfl | hmem
    · decide
    · decide
    · simpa using List.all_eq_true.1 List.all_takeWhile d hmem
  · omega

theorem ofText_rest (text : String) :
    (ofText text).cursor.rest = text.toList.drop (shebangLength text.toList) := by
  rw [ofText, Cursor.rest_move]
  rfl

theorem ofText_offset (text : String) :
    (ofText text).cursor.offset = byteLength (text.toList.take (shebangLength text.toList)) := by
  rw [ofText, Cursor.offset_move]
  simp [Cursor.ofText]

end Lexer

/-- Scanning a text to its end loses nothing of it.  In order of delivery the
comments and tokens follow one another, each made of whole characters of the
text; what stands outside them is white space or the line for the system; each
scan before `eof` consumes something, and behind `eof` nothing changes. -/
theorem scan_covers_text [IdentifierTable] (text : String) (h : (Scan.ofText text).error = none) :
    (Lexer.ofText text).Scans (Scan.ofText text).tokens ∧
    ((Scan.ofText text).tokens.flatMap Token.marks).Pairwise
      (fun m m' => m.span.stop ≤ m'.span.start) ∧
    (∀ m ∈ (Scan.ofText text).tokens.flatMap Token.marks, ∃ pre body rest,
      text.toList = pre ++ (body ++ rest) ∧ m.span.start = byteLength pre ∧
      m.span.stop = byteLength (pre ++ body) ∧ m.Spells body rest) ∧
    (∀ pre c rest, text.toList = pre ++ c :: rest →
      (∀ m ∈ (Scan.ofText text).tokens.flatMap Token.marks,
        byteLength pre < m.span.start ∨ m.span.stop ≤ byteLength pre) →
      isSpace c = true ∨
        (['#', '!'] <+: text.toList ∧ ∀ d ∈ pre ++ [c], isLineBreak d = false)) ∧
    (∀ n t, ((Lexer.ofText text).after n).next.1 = .ok t → t.isEof = false →
      ((Lexer.ofText text).after n).cursor.offset <
        ((Lexer.ofText text).after (n + 1)).cursor.offset) ∧
    (∀ n t, ((Lexer.ofText text).after n).next.1 = .ok t → t.isEof = true →
      t.location.span = .empty (byteLength text.toList) ∧
      ∀ k, ((Lexer.ofText text).after (n + 1 + k)).next.1 =
        .ok { kind := .eof, location := t.location, comments := [] }) := by
  have hscans : (Lexer.ofText text).Scans (Scan.ofText text).tokens :=
    Lexer.scans_of_error_eq_none h
  have hcov := hscans.covered
  rw [Lexer.ofText_offset] at hcov
  refine ⟨hscans, hcov.pairwise, ?_, ?_, ?_, ?_⟩
  · intro m hm
    obtain ⟨pre, body, rest, hcs, hstart, hstop, hspells⟩ := hcov.exists_body m hm
    refine ⟨text.toList.take (Lexer.shebangLength text.toList) ++ pre, body, rest, ?_, ?_, ?_,
      hspells⟩
    · rw [List.append_assoc, ← hcs, Lexer.ofText_rest, List.take_append_drop]
    · rw [hstart, byteLength_append]
    · rw [hstop, List.append_assoc, byteLength_append _ (pre ++ body)]
  · intro pre c rest hcs hout
    by_cases hlt : pre.length < Lexer.shebangLength text.toList
    · exact .inr (Lexer.shebang_of_lt hcs hlt)
    · -- behind that line the text is covered
      rw [Lexer.ofText_rest] at hcov
      generalize Lexer.shebangLength text.toList = n at hlt hcov
      have hle : n ≤ pre.length := Nat.le_of_not_lt hlt
      have hsplit : text.toList.drop n = pre.drop n ++ c :: rest := by
        rw [hcs, List.drop_append_of_le_length hle]
      have hbytes : byteLength (text.toList.take n) + byteLength (pre.drop n) = byteLength pre := by
        rw [hcs, List.take_append_of_le_length hle, ← byteLength_append, List.take_append_drop]
      refine .inl (hcov.isSpace_outside hsplit fun m hm => ?_)
      rw [hbytes]
      exact hout m hm
  · intro n t hn ht
    exact Lexer.offset_lt_next hn ht
  · intro n t hn ht
    refine ⟨?_, fun k => ?_⟩
    · rw [(Lexer.next_of_eof hn ht).1, Lexer.reach_after, Lexer.ofText, Cursor.reach_move]
      simp [Cursor.reach, Cursor.ofText]
    · rw [Lexer.next_after_eof hn ht k]

/-- A line for the system, both kinds of comments, a character of several bytes
and a regular expression. -/
theorem scan_covers_shebang_text :
    (Scan.ofText "#!x\n// a\u2028/*é*/b = /c/g").error = none ∧
    (Scan.ofText "#!x\n// a\u2028/*é*/b = /c/g").tokens.map (·.location.span.text) =
      ["17..18", "19..20", "21..25", "25..25"] ∧
    ((Scan.ofText "#!x\n// a\u2028/*é*/b = /c/g").tokens.flatMap Token.marks).Pairwise
      (fun m m' => m.span.stop ≤ m'.span.start) := by
  have h : (Scan.ofText "#!x\n// a\u2028/*é*/b = /c/g").error = none := by decide +kernel
  exact ⟨h, by decide +kernel, (scan_covers_text _ h).2.1⟩

end ScriptOutline
