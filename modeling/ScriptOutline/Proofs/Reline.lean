/-
Characters with another line break in place of every line feed.

`reline` replaces them.  What is cut off the first line is cut off as before.  Only a
comment and a string take line feeds in, a string behind a backslash, and then they take
what became of these: `cuts_read` says so of whatever stands behind a gap.
-/
import ScriptOutline.Proofs.FirstLine

namespace ScriptOutline

open Text

/-- The line breaks beside the line feed. -/
inductive LineEnding where
  | carriageReturnLineFeed
  | carriageReturn
  | lineSeparator
  | paragraphSeparator
deriving DecidableEq, Repr

namespace LineEnding

def chars : LineEnding → List Char
  | carriageReturnLineFeed => ['\r', '\n']
  | carriageReturn => ['\r']
  | lineSeparator => ['\u2028']
  | paragraphSeparator => ['\u2029']

def reline (x : LineEnding) (cs : List Char) : List Char :=
  cs.flatMap fun c => if c == '\n' then x.chars else [c]

def relineText (x : LineEnding) (text : String) : String := String.ofList (x.reline text.toList)

def spread (x : LineEnding) (cs : List Char) (n : Nat) : Nat := (x.reline (cs.take n)).length

variable (x : LineEnding)

theorem chars_cases :
    x.chars = ['\r', '\n'] ∨ ∃ c, x.chars = [c] ∧ isLineBreak c = true ∧ c ≠ '\n' := by
  cases x with
  | carriageReturnLineFeed => exact .inl rfl
  | carriageReturn => exact .inr ⟨'\r', rfl, rfl, by decide⟩
  | lineSeparator => exact .inr ⟨'\u2028', rfl, rfl, by decide⟩
  | paragraphSeparator => exact .inr ⟨'\u2029', rfl, rfl, by decide⟩

@[simp] theorem reline_nil : x.reline [] = [] := rfl

theorem reline_newline (cs : List Char) : x.reline ('\n' :: cs) = x.chars ++ x.reline cs := rfl

theorem reline_cons {c : Char} (h : c ≠ '\n') (cs : List Char) :
    x.reline (c :: cs) = c :: x.reline cs := by
  simp [reline, h]

theorem reline_append (cs ds : List Char) : x.reline (cs ++ ds) = x.reline cs ++ x.reline ds :=
  List.flatMap_append

/-- What comes in place of a line feed begins with another line break. -/
theorem exists_reline_newline (cs : List Char) :
    ∃ d more, x.reline ('\n' :: cs) = d :: more ∧ isLineBreak d = true ∧ d ≠ '\n' := by
  rcases x.chars_cases with h | ⟨c, h, hc⟩
  · exact ⟨'\r', '\n' :: x.reline cs, by rw [reline_newline, h]; rfl, rfl, by decide⟩
  · exact ⟨c, x.reline cs, by rw [reline_newline, h]; rfl, hc⟩

theorem reline_eq_self {cs : List Char} (h : '\n' ∉ cs) : x.reline cs = cs := by
  induction cs with
  | nil => rfl
  | cons c cs ih =>
    rw [List.mem_cons, not_or] at h
    rw [reline_cons x (Ne.symm h.1), ih h.2]

theorem reline_eq_nil {cs : List Char} : x.reline cs = [] ↔ cs = [] := by
  cases cs with
  | nil => simp
  | cons c cs =>
    by_cases hc : c = '\n'
    · subst hc
      obtain ⟨d, more, hline, -⟩ := x.exists_reline_newline cs
      simp [hline]
    · simp [reline_cons x hc]

theorem head?_reline_ne (cs : List Char) : (x.reline cs).head? ≠ some '\n' := by
  cases cs with
  | nil => simp
  | cons c cs =>
    by_cases hc : c = '\n'
    · subst hc
      obtain ⟨d, more, hline, -, hd⟩ := x.exists_reline_newline cs
      simpa [hline] using hd
    · simpa [reline_cons x hc] using hc

/-- A first character that is no line break was there before. -/
theorem head?_of_reline {cs : List Char} {c : Char} (h : (x.reline cs).head? = some c)
    (hc : isLineBreak c = false) : cs.head? = some c := by
  cases cs with
  | nil => cases h
  | cons b cs =>
    by_cases hb : b = '\n'
    · subst hb
      obtain ⟨d, more, hline, hd, -⟩ := x.exists_reline_newline cs
      rw [hline, List.head?_cons, Option.some.injEq] at h
      rw [h, hc] at hd
      cases hd
    · rw [reline_cons x hb] at h
      exact h

theorem firstLine_reline (cs : List Char) : firstLine (x.reline cs) = firstLine cs := by
  induction cs with
  | nil => rfl
  | cons c cs ih =>
    by_cases hc : c = '\n'
    · subst hc
      obtain ⟨d, more, hline, hd, -⟩ := x.exists_reline_newline cs
      rw [hline, firstLine_lineBreak hd, firstLine_lineBreak rfl]
    · rw [reline_cons x hc]
      cases hb : isLineBreak c with
      | true => rw [firstLine_lineBreak hb, firstLine_lineBreak hb]
      | false => rw [firstLine_cons hb, firstLine_cons hb, ih]

theorem any_isLineBreak_reline (cs : List Char) :
    (x.reline cs).any isLineBreak = cs.any isLineBreak := by
  induction cs with
  | nil => rfl
  | cons c cs ih =>
    by_cases hc : c = '\n'
    · subst hc
      obtain ⟨d, more, hline, hd, -⟩ := x.exists_reline_newline cs
      rw [hline, List.any_cons, hd]
      rfl
    · rw [reline_cons x hc, List.any_cons, List.any_cons, ih]

theorem startsToken_reline {cs : List Char} (h : startsToken cs = true) :
    startsToken (x.reline cs) = true := by
  cases cs with
  | nil => rfl
  | cons c rest =>
    obtain ⟨hspace, hnext⟩ := startsToken_cons_iff.1 h
    have hne : c ≠ '\n' := by
      rintro rfl
      cases hspace
    rw [reline_cons x hne, startsToken_cons_iff]
    refine ⟨hspace, fun hc => ?_⟩
    obtain ⟨hslash, hstar⟩ := hnext hc
    exact ⟨fun hhead => hslash (x.head?_of_reline hhead rfl),
      fun hhead => hstar (x.head?_of_reline hhead rfl)⟩

theorem relineText_ofList (cs : List Char) :
    x.relineText (String.ofList cs) = String.ofList (x.reline cs) := by
  rw [relineText, String.toList_ofList]

theorem spread_newline (cs : List Char) (n : Nat) :
    x.spread ('\n' :: cs) (n + 1) = x.chars.length + x.spread cs n := by
  rw [spread, List.take_succ_cons, reline_newline, List.length_append, spread]

theorem spread_cons {c : Char} (h : c ≠ '\n') (cs : List Char) (n : Nat) :
    x.spread (c :: cs) (n + 1) = x.spread cs n + 1 := by
  rw [spread, List.take_succ_cons, reline_cons x h, List.length_cons, spread]

theorem spread_add (cs : List Char) (m n : Nat) :
    x.spread cs (m + n) = x.spread cs m + x.spread (cs.drop m) n := by
  rw [spread, List.take_add, reline_append, List.length_append, spread, spread]

theorem spread_append (pre rest : List Char) :
    x.spread (pre ++ rest) pre.length = (x.reline pre).length := by
  rw [spread, List.take_left]

/-- In the first line nothing changes. -/
theorem spread_of_le {cs : List Char} {n : Nat} (h : n ≤ (firstLine cs).length) :
    x.spread cs n = n := by
  have hplain : '\n' ∉ cs.take n := by
    rw [← take_firstLine h]
    intro hmem
    cases isLineBreak_of_mem_firstLine (List.mem_of_mem_take hmem)
  have hlength := length_firstLine_le cs
  rw [spread, reline_eq_self x hplain, List.length_take]
  omega

theorem drop_spread (cs : List Char) (n : Nat) :
    (x.reline cs).drop (x.spread cs n) = x.reline (cs.drop n) := by
  conv => lhs; rw [← List.take_append_drop n cs]
  rw [reline_append, spread, List.take_append_drop, List.drop_left]

theorem closeComment?_chars (cs : List Char) :
    closeComment? (x.chars ++ cs) =
      (closeComment? cs).map fun r => (x.chars ++ r.1, r.2) := by
  have hpass : ∀ c ds, isLineBreak c = true →
      closeComment? (c :: ds) = (closeComment? ds).map fun r => (c :: r.1, r.2) := by
    intro c ds hc
    rw [closeComment?]
    exact fun _ hstar => absurd hstar (ne_of_isLineBreak hc rfl)
  rcases x.chars_cases with h | ⟨c, h, hc, -⟩
  · rw [h, List.cons_append, List.cons_append, List.nil_append, hpass _ _ rfl, hpass _ _ rfl,
      Option.map_map]
    rfl
  · rw [h, List.singleton_append, hpass _ _ hc]
    rfl

theorem closeComment?_reline (cs : List Char) :
    closeComment? (x.reline cs) =
      (closeComment? cs).map fun r => (x.reline r.1, x.reline r.2) := by
  fun_induction closeComment? cs with
  | case1 => rfl
  | case2 cs =>
    rw [reline_cons x (by decide), reline_cons x (by decide)]
    rfl
  | case3 c cs hopen ih =>
    rw [Option.map_map]
    by_cases hc : c = '\n'
    · subst hc
      rw [reline_newline, closeComment?_chars, ih, Option.map_map]
      rfl
    · rw [reline_cons x hc, closeComment?, ih, Option.map_map]
      · congr 1
        funext r
        exact Prod.ext (reline_cons x hc r.1).symm rfl
      · rintro ds rfl hds
        have hhead : cs.head? = some '/' := x.head?_of_reline (by rw [hds]; rfl) rfl
        obtain ⟨rest, rfl⟩ := List.head?_eq_some_iff.1 hhead
        exact hopen rest rfl rfl

open Literal

theorem escape_reline {letter : Char} (h : letter ≠ '\r') (cs : List Char) :
    Escape.read letter (x.reline cs) = Escape.read letter cs := by
  rw [← Escape.read_firstLine h, firstLine_reline, Escape.read_firstLine h]

/-- A continued line goes on behind any line ending. -/
theorem stringBody_chars {mark : Char} (hmark : mark ≠ '\\') (cs : List Char) :
    stringBody mark ('\\' :: (x.chars ++ x.reline cs)) =
      .behind (1 + x.chars.length) [] (stringBody mark (x.reline cs)) := by
  rcases x.chars_cases with h | ⟨c, h, hc, -⟩
  · rw [h, List.cons_append, stringBody_escape hmark]
    rfl
  · have hescape : Escape.read c (x.reline cs) = { value := [] } := by
      have hall : ∀ d ∈ lineBreaks, d ≠ '\r' → Escape.read d (x.reline cs) = { value := [] } := by
        simp [lineBreaks, Escape.read, isLineBreak]
      by_cases hr : c = '\r'
      · subst hr
        have hhead := x.head?_reline_ne cs
        simp [Escape.read, hhead]
      · exact hall c (mem_lineBreaks hc) hr
    rw [h, List.singleton_append, stringBody_escape hmark, hescape]
    rfl

/-- The string that takes what became of the characters of `b`. -/
def relineBody (cs : List Char) (b : StringBody) : StringBody :=
  { b with length := x.spread cs b.length }

theorem relineBody_behind (cs : List Char) (n : Nat) (value : List Char) (b : StringBody) :
    x.relineBody cs (.behind n value b) =
      .behind (x.spread cs n) value (x.relineBody (cs.drop n) b) := by
  simp only [relineBody, StringBody.behind, Extent.behind, spread_add]

theorem stringBody_reline {mark : Char} (hmark : isLineBreak mark = false) {cs : List Char}
    (hcs : '\r' ∉ cs) :
    stringBody mark (x.reline cs) = x.relineBody cs (stringBody mark cs) := by
  fun_induction stringBody mark cs with
  | case1 =>
    rw [reline_nil, stringBody]
    rfl
  | case2 c rest hc =>
    have hc : c = mark := by simpa using hc
    subst hc
    have hne : c ≠ '\n' := (ne_of_isLineBreak rfl hmark).symm
    rw [reline_cons x hne, stringBody_mark, relineBody, spread_cons x hne]
    rfl
  | case3 c rest hc hbreak =>
    by_cases hne : c = '\n'
    · subst hne
      obtain ⟨d, more, hline, hd, -⟩ := x.exists_reline_newline rest
      rw [hline, stringBody_lineBreak hmark hd]
      rfl
    · rw [reline_cons x hne, stringBody_lineBreak hmark hbreak]
      rfl
  | case4 c hc hbreak hback =>
    have hback : c = '\\' := by simpa using hback
    subst hback
    have hquote : ('\\' == mark) = false := by simpa using hc
    have hself : x.reline ['\\'] = ['\\'] := rfl
    rw [hself, stringBody.eq_def]
    simp only [hquote]
    rfl
  | case5 c hc hbreak hback letter after e ih =>
    have hback : c = '\\' := by simpa using hback
    subst hback
    have hquote : mark ≠ '\\' := fun h => hc (by simp [h])
    simp only [List.mem_cons, not_or] at hcs
    have hletter : letter ≠ '\r' := Ne.symm hcs.2.1
    have hafter : '\r' ∉ after.drop e.length := fun h => hcs.2.2 (List.mem_of_mem_drop h)
    rw [relineBody_behind, reline_cons x (by decide), Nat.add_comm 2, List.drop_succ_cons,
      List.drop_succ_cons, ← ih hafter, spread_cons x (by decide)]
    by_cases hne : letter = '\n'
    · subst hne
      rw [reline_newline, stringBody_chars x hquote, spread_newline, Nat.add_comm 1]
      rfl
    · have hspread : x.spread after e.length = e.length :=
        x.spread_of_le (Escape.length_le_firstLine hletter after)
      have hdrop := x.drop_spread after e.length
      rw [hspread] at hdrop
      rw [reline_cons x hne, stringBody_escape hquote, x.escape_reline hletter, hdrop,
        spread_cons x hne, hspread, Nat.add_comm 2]
  | case6 c rest hc hbreak hback ih =>
    have hbreak : isLineBreak c = false := by simpa using hbreak
    have hne : c ≠ '\n' := (ne_of_isLineBreak rfl hbreak).symm
    simp only [List.mem_cons, not_or] at hcs
    rw [relineBody_behind, reline_cons x hne, stringBody_cons (by simpa using hc) hbreak
      (by simpa using hback), ih hcs.2, spread_cons x hne]
    rfl

/-! ## Cuts -/

/-- What is cut off characters and off the relined ones: the same token or fault, and it
passes what became of the characters that it passed before. -/
inductive Cuts (cs : List Char) : Cut → Cut → Prop where
  | token (kind : TokenKind) (length : Nat) (value : String) :
      Cuts cs (.token kind length value) (.token kind (x.spread cs length) value)
  | fault (fault : LexFault) (length length' passed : Nat) :
      Cuts cs (.fault fault length passed) (.fault fault length' (x.spread cs passed))

/-- A cut from the first line stays the same. -/
theorem Cuts.of_passed_le {cs : List Char} {cut : Cut} (h : cut.passed ≤ (firstLine cs).length) :
    x.Cuts cs cut cut := by
  cases cut with
  | token kind length value =>
    have hspread : x.spread cs length = length := x.spread_of_le h
    have hcuts : x.Cuts cs (.token kind length value) (.token kind (x.spread cs length) value) :=
      .token ..
    rwa [hspread] at hcuts
  | fault fault length passed =>
    have hspread : x.spread cs passed = passed := x.spread_of_le h
    have hcuts : x.Cuts cs (.fault fault length passed)
        (.fault fault length (x.spread cs passed)) := .fault ..
    rwa [hspread] at hcuts

theorem cuts_string {mark : Char} (hmark : isLineBreak mark = false) {body : List Char}
    (h : '\r' ∉ body) :
    x.Cuts (mark :: body) (.string mark body) (.string mark (x.reline body)) := by
  have hne : mark ≠ '\n' := (ne_of_isLineBreak rfl hmark).symm
  have hlength : 1 + x.spread body (stringBody mark body).length =
      x.spread (mark :: body) (1 + (stringBody mark body).length) := by
    rw [Nat.add_comm 1 (stringBody mark body).length, spread_cons x hne, Nat.add_comm]
  simp only [Cut.string_eq, x.stringBody_reline hmark h, relineBody, hlength]
  split
  · exact .token ..
  · exact .fault ..

/-- A token behind a gap is cut off alike, whatever ends the lines. -/
theorem cuts_read [IdentifierTable] (allowed : Bool) {cs : List Char} (h : '\r' ∉ cs)
    (hstart : startsToken cs = true) :
    x.Cuts cs (.read allowed cs) (.read allowed (x.reline cs)) := by
  cases cs with
  | nil => exact .of_passed_le x (Nat.le_refl 0)
  | cons c rest =>
    have hc := isLineBreak_of_startsToken hstart
    have hne : c ≠ '\n' := (ne_of_isLineBreak rfl hc).symm
    rw [List.mem_cons, not_or] at h
    cases hmark : c == '\x27' || c == '\x22' with
    | true =>
      rw [reline_cons x hne, Cut.read_mark hmark, Cut.read_mark hmark]
      exact x.cuts_string hc h.2
    | false =>
      have hread : Cut.read allowed (x.reline (c :: rest)) = Cut.read allowed (c :: rest) := by
        rw [← Cut.read_firstLine allowed hc hmark, ← firstLine_reline x, reline_cons x hne,
          Cut.read_firstLine allowed hc hmark]
      rw [hread]
      refine .of_passed_le x ?_
      rw [← Cut.read_firstLine allowed hc hmark]
      exact Cut.passed_le allowed _

end LineEnding
end ScriptOutline
