/-
Tokens other than strings are cut off one line.

`firstLine cs` are the characters of `cs` before the first line break.  A run, a number,
a regular expression, an escape and a sign are the same in `cs` as in its first line:
none of them takes a line break in, and a line break ends each as the end of the text
does.  So it does not matter to them how a line ends and what stands behind it.
-/
import ScriptOutline.Proofs.Spelling

namespace ScriptOutline

namespace Text

def firstLine (cs : List Char) : List Char := cs.takeWhile (!isLineBreak ·)

theorem firstLine_cons {c : Char} (h : isLineBreak c = false) (cs : List Char) :
    firstLine (c :: cs) = c :: firstLine cs := by
  simp [firstLine, h]

theorem firstLine_lineBreak {c : Char} (h : isLineBreak c = true) (cs : List Char) :
    firstLine (c :: cs) = [] := by
  simp [firstLine, h]

theorem isLineBreak_of_mem_firstLine {c : Char} {cs : List Char} (h : c ∈ firstLine cs) :
    isLineBreak c = false := by
  simpa using List.all_eq_true.1 List.all_takeWhile c h

/-- Behind the first line stands a line break or nothing. -/
theorem eq_firstLine_append (cs : List Char) :
    ∃ rest, cs = firstLine cs ++ rest ∧ ∀ c, rest.head? = some c → isLineBreak c = true := by
  refine ⟨cs.dropWhile (!isLineBreak ·), List.takeWhile_append_dropWhile.symm, fun c hc => ?_⟩
  have hhead := List.head?_dropWhile_not (!isLineBreak ·) cs
  rw [hc] at hhead
  simpa using hhead

theorem length_firstLine_le (cs : List Char) : (firstLine cs).length ≤ cs.length :=
  (List.takeWhile_prefix _).length_le

theorem take_firstLine {cs : List Char} {n : Nat} (h : n ≤ (firstLine cs).length) :
    (firstLine cs).take n = cs.take n := by
  obtain ⟨rest, hcs, -⟩ := eq_firstLine_append cs
  conv => rhs; rw [hcs]
  rw [List.take_append_of_le_length h]

theorem firstLine_drop {cs : List Char} {n : Nat} (h : n ≤ (firstLine cs).length) :
    firstLine (cs.drop n) = (firstLine cs).drop n := by
  induction n generalizing cs with
  | zero => rfl
  | succ n ih =>
    cases cs with
    | nil => rfl
    | cons c cs =>
      cases hc : isLineBreak c with
      | true =>
        rw [firstLine_lineBreak hc] at h
        exact absurd h (Nat.not_succ_le_zero n)
      | false =>
        rw [firstLine_cons hc, List.length_cons] at h
        rw [firstLine_cons hc, List.drop_succ_cons, List.drop_succ_cons, ih (by omega)]

theorem isIdentifierPart_of_isLineBreak [IdentifierTable] {c : Char} (h : isLineBreak c = true) :
    isIdentifierPart c = false :=
  not_isIdentifierPart_of_isSpace (by rw [isSpace, h, Bool.true_or])

section LineBreaks

variable {c : Char} (h : isLineBreak c = true)
include h

theorem isDigit_of_isLineBreak : isDigit c = false := by
  have hall : ∀ d ∈ lineBreaks, isDigit d = false := forall_mem_of_all (by decide)
  exact hall c (mem_lineBreaks h)

theorem isHexDigit_of_isLineBreak : isHexDigit c = false := by
  have hall : ∀ d ∈ lineBreaks, isHexDigit d = false := forall_mem_of_all (by decide)
  exact hall c (mem_lineBreaks h)

theorem endsNumber_of_isLineBreak [IdentifierTable] : Literal.endsNumber c = true := by
  have hall : ∀ d ∈ lineBreaks, d ≠ '.' ∧ d ≠ '+' ∧ d ≠ '-' := forall_mem_of_all (by decide)
  obtain ⟨hpoint, hplus, hminus⟩ := hall c (mem_lineBreaks h)
  simp [Literal.endsNumber, isIdentifierPart_of_isLineBreak h, hpoint, hplus, hminus]

theorem not_mem_signs_of_isLineBreak : c ∉ signs := by
  have hall : ∀ d ∈ lineBreaks, d ∉ signs := forall_mem_of_all (by decide)
  exact hall c (mem_lineBreaks h)

end LineBreaks

theorem isLineBreak_of_startsToken {c : Char} {cs : List Char}
    (h : startsToken (c :: cs) = true) : isLineBreak c = false := by
  have hspace := (startsToken_cons_iff.1 h).1
  rw [isSpace, Bool.or_eq_false_iff] at hspace
  exact hspace.1

theorem runLength_firstLine {p : Char → Bool} (hp : ∀ c, isLineBreak c = true → p c = false)
    (cs : List Char) : runLength p (firstLine cs) = runLength p cs := by
  obtain ⟨rest, hcs, hrest⟩ := eq_firstLine_append cs
  conv => rhs; rw [hcs]
  rw [runLength_append fun c hc => hp c (hrest c hc)]

theorem any_head?_firstLine {p : Char → Bool} (hp : ∀ c, isLineBreak c = true → p c = false)
    (cs : List Char) : (firstLine cs).head?.any p = cs.head?.any p := by
  cases cs with
  | nil => rfl
  | cons c cs =>
    cases hc : isLineBreak c with
    | true => simp [firstLine_lineBreak hc, hp c hc]
    | false => rw [firstLine_cons hc]; rfl

theorem head?_of_firstLine {cs : List Char} {c : Char} (h : (firstLine cs).head? = some c) :
    cs.head? = some c := by
  obtain ⟨rest, hcs, -⟩ := eq_firstLine_append cs
  rw [hcs, List.head?_append, h]
  rfl

theorem le_runLength_iff {p : Char → Bool} {n : Nat} {cs : List Char} :
    n ≤ runLength p cs ↔ (cs.take n).length = n ∧ (cs.take n).all p = true := by
  induction n generalizing cs with
  | zero => simp
  | succ n ih =>
    cases cs with
    | nil => simp [runLength]
    | cons c cs =>
      by_cases hc : p c = true
      · have hrun : runLength p (c :: cs) = runLength p cs + 1 := by simp [runLength, hc]
        rw [hrun, Nat.add_le_add_iff_right, ih]
        simp [hc]
      · simp [runLength, hc]

end Text

open Text

namespace Literal

theorem numberLength_firstLine {cs : List Char} (h : firstLine cs ≠ []) :
    numberLength (firstLine cs) = numberLength cs := by
  obtain ⟨rest, hcs, hrest⟩ := eq_firstLine_append cs
  conv => rhs; rw [hcs]
  rw [numberLength_append h fun c hc => endsNumber_of_isLineBreak (hrest c hc)]

/-- A line break leaves a regular expression open, as the end of the text does. -/
theorem regexpBody_append {rest : List Char}
    (hrest : ∀ c, rest.head? = some c → isLineBreak c = true) (bracketed : Bool)
    (cs : List Char) : regexpBody bracketed (cs ++ rest) = regexpBody bracketed cs := by
  fun_induction regexpBody bracketed cs with
  | case1 =>
    cases rest with
    | nil => rfl
    | cons c rest =>
      have hc := hrest c rfl
      rw [List.nil_append, regexpBody_cons (ne_of_isLineBreak hc rfl), if_pos hc]
  | case2 =>
    cases rest with
    | nil => rfl
    | cons c rest =>
      rw [List.singleton_append, regexpBody, if_pos (hrest c rfl)]
  | case3 bracketed c cs hc => rw [List.cons_append, List.cons_append, regexpBody, if_pos hc]
  | case4 bracketed c cs hc ih =>
    rw [List.cons_append, List.cons_append, regexpBody, if_neg hc, ih]
  | case5 bracketed c cs hnil hcons hb =>
    rw [List.cons_append, regexpBody_cons (ne_of_isLineBreak hb rfl), if_pos hb]
  | case6 bracketed c cs hnil hcons hb hc =>
    have hslash : c ≠ '\\' := by
      rintro rfl
      cases hc
    rw [List.cons_append, regexpBody_cons hslash, if_neg hb, if_pos hc]
  | case7 bracketed c cs hnil hcons hb hc ih =>
    have hslash : c ≠ '\\' := by
      rintro rfl
      cases cs with
      | nil => exact hnil rfl rfl
      | cons d cs => exact hcons d cs rfl rfl
    rw [List.cons_append, regexpBody_cons hslash, if_neg hb, if_neg hc, ih]

theorem regexp_length_le [IdentifierTable] (cs : List Char) : (regexp cs).length ≤ cs.length := by
  cases cs with
  | nil => exact Nat.le_refl 0
  | cons c cs =>
    have hbody := regexpBody_length_le false cs
    have hflags := runLength_le isIdentifierPart (cs.drop (regexpBody false cs).length)
    rw [List.length_drop] at hflags
    simp only [regexp, Extent.behind, List.length_cons]
    split
    · show 1 + _ + _ ≤ _
      omega
    · show 1 + _ ≤ _
      omega

theorem regexp_firstLine [IdentifierTable] {cs : List Char} (h : firstLine cs ≠ []) :
    regexp (firstLine cs) = regexp cs := by
  obtain ⟨rest, hcs, hrest⟩ := eq_firstLine_append cs
  conv => rhs; rw [hcs]
  cases hline : firstLine cs with
  | nil => exact absurd hline h
  | cons c line =>
    have hflags : ∀ c, rest.head? = some c → isIdentifierPart c = false := fun c hc =>
      isIdentifierPart_of_isLineBreak (hrest c hc)
    simp only [regexp, List.cons_append, regexpBody_append hrest]
    rw [List.drop_append_of_le_length (regexpBody_length_le false line), runLength_append hflags]

namespace Escape

theorem digits_eq (letter : Char) (n : Nat) (cs : List Char) :
    digits letter n cs =
      if n ≤ runLength isHexDigit cs then
        { value := codePoint letter (hexNumber (cs.take n)), length := n }
      else { value := [letter] } := by
  simp only [digits, le_runLength_iff, Bool.and_eq_true, beq_iff_eq]

theorem digits_firstLine (letter : Char) (n : Nat) (cs : List Char) :
    digits letter n (firstLine cs) = digits letter n cs := by
  have hrun : runLength isHexDigit (firstLine cs) = runLength isHexDigit cs :=
    runLength_firstLine (fun _ => isHexDigit_of_isLineBreak) cs
  rw [digits_eq, digits_eq, hrun]
  split
  · rename_i hn
    have hle := runLength_le isHexDigit (firstLine cs)
    rw [take_firstLine (by omega)]
  · rfl

theorem digits_length_le (letter : Char) (n : Nat) (cs : List Char) :
    (digits letter n cs).length ≤ cs.length := by
  have hle := runLength_le isHexDigit cs
  rw [digits_eq]
  split
  · show n ≤ _
    omega
  · exact Nat.zero_le _

/-- No number between braces goes over a line break. -/
theorem braced?_eq_none {inner : List Char} {c : Char} (hc : isLineBreak c = true)
    (hmem : c ∈ inner) : braced? inner = none := by
  have hplus : c ≠ '+' := ne_of_isLineBreak hc rfl
  have hrun : c ∈ if inner.head? == some '+' then inner.tail else inner := by
    split
    · cases inner with
      | nil => cases hmem
      | cons d inner =>
        rename_i hd
        have hd : d = '+' := by simpa using hd
        exact (List.mem_cons.1 hmem).resolve_left fun h => hplus (h.trans hd)
    · exact hmem
  have hall : (if inner.head? == some '+' then inner.tail else inner).all isHexDigit = false := by
    rw [List.all_eq_false]
    exact ⟨c, hrun, by rw [isHexDigit_of_isLineBreak hc]; simp⟩
  simp only [braced?, hall, Bool.and_false, Bool.false_and, Bool.false_eq_true, if_false]

theorem braces_firstLine (cs : List Char) : braces (firstLine cs) = braces cs := by
  obtain ⟨rest, hcs, hrest⟩ := eq_firstLine_append cs
  have hinner : cs.takeWhile (· != '\x7d') = (firstLine cs ++ rest).takeWhile (· != '\x7d') :=
    congrArg _ hcs
  have hlength := length_firstLine_le cs
  rw [List.takeWhile_append] at hinner
  generalize firstLine cs = line at *
  by_cases hopen : (line.takeWhile (· != '\x7d')).length = line.length
  · -- the brace is not closed in its line
    rw [if_pos hopen] at hinner
    have hline : braces line = { value := ['u'] } := by
      simp only [braces, hopen, Nat.lt_irrefl, if_false]
      split <;> rfl
    cases rest with
    | nil => rw [hcs, List.append_nil]
    | cons c rest =>
      have hc := hrest c rfl
      have hbrace : c ≠ '\x7d' := ne_of_isLineBreak hc rfl
      have hmem : c ∈ cs.takeWhile (· != '\x7d') := by
        rw [hinner]
        simp [hbrace]
      rw [hline]
      simp only [braces, braced?_eq_none hc hmem]
  · rw [if_neg hopen] at hinner
    have hle : (line.takeWhile (· != '\x7d')).length ≤ line.length :=
      (List.takeWhile_prefix _).length_le
    have hlt : (line.takeWhile (· != '\x7d')).length < line.length := by omega
    simp only [braces, hinner, if_pos hlt, if_pos (Nat.lt_of_lt_of_le hlt hlength)]

theorem braces_length_le (cs : List Char) : (braces cs).length ≤ cs.length + 1 := by
  simp only [braces]
  split
  · split
    · show _ + 2 ≤ _
      omega
    · exact Nat.zero_le _
  · exact Nat.zero_le _

theorem read_length_le (letter : Char) (cs : List Char) : (read letter cs).length ≤ cs.length := by
  by_cases hx : letter = 'x'
  · subst hx
    exact digits_length_le 'x' 2 cs
  by_cases hu : letter = 'u'
  · subst hu
    by_cases hbrace : cs.head? = some '\x7b'
    · obtain ⟨rest, rfl⟩ := List.head?_eq_some_iff.1 hbrace
      exact braces_length_le rest
    · rw [read_u hbrace]
      exact digits_length_le 'u' 4 cs
  by_cases hr : letter = '\r'
  · subst hr
    show (if cs.head? == some '\n' then 1 else 0) ≤ _
    cases cs with
    | nil => exact Nat.le_refl 0
    | cons c cs => split <;> simp
  · rw [read_length_eq_zero hx hu hr]
    exact Nat.zero_le _

/-- An escape is read from its line, but for a carriage return before a line feed. -/
theorem read_firstLine {letter : Char} (h : letter ≠ '\r') (cs : List Char) :
    read letter (firstLine cs) = read letter cs := by
  by_cases hu : letter = 'u'
  · subst hu
    cases cs with
    | nil => rfl
    | cons c cs =>
      by_cases hbrace : c = '\x7b'
      · subst hbrace
        rw [firstLine_cons rfl, read_brace, read_brace, braces_firstLine]
      · have hhead : (firstLine (c :: cs)).head? ≠ some '\x7b' := fun hline =>
          hbrace (Option.some.inj (head?_of_firstLine hline))
        have hcons : (c :: cs).head? ≠ some '\x7b' := fun hd => hbrace (Option.some.inj hd)
        rw [read_u hhead, digits_firstLine, read_u hcons]
  · have hdigit : (firstLine cs).head?.any isDigit = cs.head?.any isDigit :=
      any_head?_firstLine (fun _ => isDigit_of_isLineBreak) cs
    simp only [read, beq_iff_eq, hu, h, if_false, hdigit, digits_firstLine]

theorem length_le_firstLine {letter : Char} (h : letter ≠ '\r') (cs : List Char) :
    (read letter cs).length ≤ (firstLine cs).length := by
  rw [← read_firstLine h]
  exact read_length_le letter _

end Escape

theorem stringBody_length_le (mark : Char) (cs : List Char) :
    (stringBody mark cs).length ≤ cs.length := by
  fun_induction stringBody mark cs with
  | case1 => exact Nat.le_refl 0
  | case2 => simp
  | case3 => exact Nat.zero_le _
  | case4 => simp [StringBody.behind, Extent.behind, StringBody.unclosed, Extent.unclosed]
  | case5 c _ _ hc letter after e ih =>
    have hescape : e.length ≤ after.length := Escape.read_length_le letter after
    rw [List.length_drop] at ih
    simp only [StringBody.behind, Extent.behind, List.length_cons]
    omega
  | case6 c rest _ _ _ ih =>
    simp only [StringBody.behind, Extent.behind, List.length_cons]
    omega

theorem getLast?_ne_of_suffix {x : Char} {cs ds : List Char} (h : ds <:+ cs)
    (hx : cs.getLast? ≠ some x) : ds.getLast? ≠ some x := by
  obtain ⟨pre, rfl⟩ := h
  intro hds
  rw [List.getLast?_append, hds] at hx
  exact hx rfl

/-- A string is read from its line unless a backslash ends it. -/
theorem stringBody_firstLine {mark : Char} (hmark : isLineBreak mark = false) {cs : List Char}
    (h : (firstLine cs).getLast? ≠ some '\\') :
    stringBody mark (firstLine cs) = stringBody mark cs := by
  have hempty : stringBody mark [] = .unclosed := by rw [stringBody.eq_def]
  fun_induction stringBody mark cs with
  | case1 => exact hempty
  | case2 c rest hc =>
    obtain rfl : c = mark := by simpa using hc
    rw [firstLine_cons hmark, stringBody_mark]
  | case3 c rest hc hbreak => rw [firstLine_lineBreak hbreak, hempty]
  | case4 c hc hbreak hback =>
    obtain rfl : c = '\\' := by simpa using hback
    exact absurd rfl h
  | case5 c hc hbreak hback letter after e ih =>
    obtain rfl : c = '\\' := by simpa using hback
    have hquote : mark ≠ '\\' := fun hmark => hc (by simp [hmark])
    cases hletter : isLineBreak letter with
    | true =>
      rw [firstLine_cons rfl, firstLine_lineBreak hletter] at h
      exact absurd rfl h
    | false =>
      have hreturn : letter ≠ '\r' := (ne_of_isLineBreak rfl hletter).symm
      have hescape : Escape.read letter (firstLine after) = e := Escape.read_firstLine hreturn after
      have hdrop : firstLine (after.drop e.length) = (firstLine after).drop e.length :=
        firstLine_drop (Escape.length_le_firstLine hreturn after)
      rw [firstLine_cons rfl, firstLine_cons hletter] at h ⊢
      have hsuffix : firstLine (after.drop e.length) <:+ '\\' :: letter :: firstLine after := by
        rw [hdrop]
        exact (List.drop_suffix _ _).trans ((List.suffix_cons _ _).trans (List.suffix_cons _ _))
      rw [stringBody_escape hquote, hescape, ← hdrop, ih (getLast?_ne_of_suffix hsuffix h)]
  | case6 c rest hc hbreak hback ih =>
    have hbreak : isLineBreak c = false := by simpa using hbreak
    rw [firstLine_cons hbreak] at h ⊢
    rw [stringBody_cons (by simpa using hc) hbreak (by simpa using hback),
      ih (getLast?_ne_of_suffix (List.suffix_cons _ _) h)]

end Literal

theorem signOperator?_firstLine (cs : List Char) :
    signOperator? (firstLine cs) = signOperator? cs := by
  obtain ⟨rest, hcs, hrest⟩ := eq_firstLine_append cs
  conv => rhs; rw [hcs]
  refine List.find?_congr fun sign hsign => ?_
  have hprefix := @Cut.isPrefixOf_sign (String.ofList (firstLine cs)) rest
    (fun c hc => no_sign_begins_of_not_mem (not_mem_signs_of_isLineBreak (hrest c hc)) _) sign hsign
  rw [String.toList_ofList] at hprefix
  exact hprefix.symm

theorem length_le_of_signOperator? {cs : List Char} {sign : String}
    (h : signOperator? cs = some sign) : sign.length ≤ cs.length := by
  have hp := List.find?_some h
  rw [List.isPrefixOf_iff_prefix] at hp
  rw [← String.length_toList]
  exact hp.length_le

namespace Cut

def passed : Cut → Nat
  | token _ length _ => length
  | fault _ _ passed => passed

theorem spelled_firstLine (kind : TokenKind) {cs : List Char} {n : Nat}
    (h : n ≤ (firstLine cs).length) : spelled kind (firstLine cs) n = spelled kind cs n := by
  rw [spelled, spelled, take_firstLine h]

theorem word_firstLine [IdentifierTable] (cs : List Char) : word (firstLine cs) = word cs := by
  have hrun : runLength isIdentifierPart (firstLine cs) = runLength isIdentifierPart cs :=
    runLength_firstLine (fun _ => isIdentifierPart_of_isLineBreak) cs
  have hle := runLength_le isIdentifierPart (firstLine cs)
  rw [hrun] at hle
  simp only [word, hrun, take_firstLine hle, spelled_firstLine _ hle]

theorem regexp_firstLine [IdentifierTable] {cs : List Char} (h : firstLine cs ≠ []) :
    regexp (firstLine cs) = regexp cs := by
  have hle := Literal.regexp_length_le (firstLine cs)
  rw [Literal.regexp_firstLine h] at hle
  simp only [regexp, Literal.regexp_firstLine h, spelled_firstLine _ hle]

theorem number_firstLine {cs : List Char} (h : firstLine cs ≠ []) :
    spelled .number (firstLine cs) (Literal.numberLength (firstLine cs)) =
      spelled .number cs (Literal.numberLength cs) := by
  have hle := Literal.numberLength_le (firstLine cs)
  rw [Literal.numberLength_firstLine h] at hle ⊢
  exact spelled_firstLine _ hle

/-- Whatever does not open a string is cut off the first line. -/
theorem read_firstLine [IdentifierTable] (allowed : Bool) {c : Char} {rest : List Char}
    (hc : isLineBreak c = false) (hmark : (c == '\x27' || c == '\x22') = false) :
    read allowed (firstLine (c :: rest)) = read allowed (c :: rest) := by
  have hne : firstLine (c :: rest) ≠ [] := by
    rw [firstLine_cons hc]
    exact List.cons_ne_nil _ _
  have hpos : 1 ≤ (firstLine (c :: rest)).length := List.length_pos_iff.2 hne
  have hdigit : (firstLine rest).head?.any isDigit = rest.head?.any isDigit :=
    any_head?_firstLine (fun _ => isDigit_of_isLineBreak) rest
  have hone := spelled_firstLine .punctuation hpos
  have hnumber := number_firstLine hne
  have hregexp := regexp_firstLine hne
  have hword := word_firstLine (c :: rest)
  have hsign := signOperator?_firstLine (c :: rest)
  rw [firstLine_cons hc] at *
  simp only [read, hmark, hdigit, hone, hnumber, hregexp, hword, hsign, Bool.false_eq_true,
    if_false]

/-- A token is cut off the first line unless a backslash ends that. -/
theorem read_firstLine_of_getLast? [IdentifierTable] (allowed : Bool) {cs : List Char}
    (hstart : startsToken cs = true) (h : (firstLine cs).getLast? ≠ some '\\') :
    read allowed (firstLine cs) = read allowed cs := by
  cases cs with
  | nil => rfl
  | cons c rest =>
    have hc := isLineBreak_of_startsToken hstart
    cases hmark : c == '\x27' || c == '\x22' with
    | false => exact read_firstLine allowed hc hmark
    | true =>
      rw [firstLine_cons hc] at h ⊢
      have hbody : (firstLine rest).getLast? ≠ some '\\' :=
        Literal.getLast?_ne_of_suffix (List.suffix_cons _ _) h
      rw [read_mark hmark, read_mark hmark, string_eq, string_eq, Literal.stringBody_firstLine hc hbody]

theorem passed_string_le (mark : Char) (body : List Char) :
    (string mark body).passed ≤ body.length + 1 := by
  have hle := Literal.stringBody_length_le mark body
  simp only [string_eq]
  split
  · show 1 + _ ≤ _
    omega
  · show 1 + _ ≤ _
    omega

theorem passed_regexp_le [IdentifierTable] (cs : List Char) : (regexp cs).passed ≤ cs.length := by
  have hle := Literal.regexp_length_le cs
  simp only [regexp]
  split
  · exact hle
  · exact hle

/-- No cut goes past the end of the text. -/
theorem passed_le [IdentifierTable] (allowed : Bool) (cs : List Char) :
    (read allowed cs).passed ≤ cs.length := by
  cases cs with
  | nil => exact Nat.le_refl 0
  | cons c rest =>
    have hone : 1 ≤ (c :: rest).length := Nat.succ_pos _
    simp only [read]
    split
    · exact hone
    split
    · split
      · exact Literal.numberLength_le _
      · exact hone
    split
    · exact passed_string_le c rest
    split
    · exact Literal.numberLength_le _
    split
    · exact passed_regexp_le _
    split
    · exact runLength_le _ _
    split
    · rename_i sign hsign
      exact length_le_of_signOperator? hsign
    · exact Nat.zero_le _

end Cut

/-- A line for the system is a first line. -/
theorem Lexer.shebangLength_eq (cs : List Char) :
    shebangLength cs = if ['#', '!'] <+: firstLine cs then (firstLine cs).length else 0 := by
  unfold shebangLength
  split
  · rename_i rest
    rw [firstLine_cons rfl, firstLine_cons rfl, if_pos ⟨firstLine rest, rfl⟩, List.length_cons,
      List.length_cons, Nat.add_comm]
    rfl
  · rename_i hother
    rw [if_neg]
    intro hline
    obtain ⟨rest, hrest⟩ := hline.trans (List.takeWhile_prefix _)
    exact hother rest hrest.symm

theorem Lexer.shebangLength_le (cs : List Char) : shebangLength cs ≤ (firstLine cs).length := by
  rw [shebangLength_eq]
  split
  · exact Nat.le_refl _
  · exact Nat.zero_le _

end ScriptOutline
