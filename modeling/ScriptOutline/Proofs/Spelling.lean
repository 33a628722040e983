/-
Every token has a spelling that reads back as the token.

`Token.Lexical` says what the value of a token looks like, kind by kind, and
`Cut.lexical_read` that every token cut off a text looks so.  The other way round
`Token.cut_spelling` cuts a token off again in front of any characters that leave it
alone, which is what `Token.Free` says of the first of them.

A literal reaches as far into a longer text as into its own spelling, so each
length has one lemma for characters behind it and one for characters cut away.
-/
import Mathlib.Data.List.Find
import ScriptOutline.Proofs.Decoding
import ScriptOutline.Script.Printer

namespace ScriptOutline

open Text

theorem Text.runLength_append {p : Char → Bool} {rest : List Char}
    (h : ∀ c, rest.head? = some c → p c = false) (cs : List Char) :
    runLength p (cs ++ rest) = runLength p cs := by
  induction cs with
  | nil =>
    cases rest with
    | nil => rfl
    | cons c rest => simp [runLength, h c rfl]
  | cons c cs ih =>
    simp only [runLength, List.cons_append, List.takeWhile_cons] at ih ⊢
    split
    · rw [List.length_cons, List.length_cons, ih]
    · rfl

theorem Text.runLength_take {p : Char → Bool} {cs : List Char} {n : Nat}
    (h : runLength p cs ≤ n) : runLength p (cs.take n) = runLength p cs := by
  induction cs generalizing n with
  | nil => simp
  | cons c cs ih =>
    simp only [runLength, List.takeWhile_cons] at h ih ⊢
    cases n with
    | zero =>
      split at h
      · simp at h
      · simp_all
    | succ n =>
      simp only [List.take_succ_cons, List.takeWhile_cons]
      split at h
      · rename_i hc
        simp only [hc, if_true, List.length_cons] at h ⊢
        rw [ih (by omega)]
      · rename_i hc
        simp [hc]

theorem Text.runLength_eq_length {p : Char → Bool} {cs : List Char}
    (h : ∀ c ∈ cs, p c = true) : runLength p cs = cs.length := by
  induction cs with
  | nil => rfl
  | cons c cs ih =>
    have hc := h c List.mem_cons_self
    have hcs := ih fun d hd => h d (List.mem_cons_of_mem c hd)
    simp only [runLength, List.takeWhile_cons, hc, if_true, List.length_cons] at hcs ⊢
    rw [hcs]

theorem Text.all_take_runLength (p : Char → Bool) (cs : List Char) :
    ∀ c ∈ cs.take (runLength p cs), p c = true := by
  have h : cs.take (runLength p cs) = cs.takeWhile p :=
    (List.prefix_iff_eq_take.1 (List.takeWhile_prefix p)).symm
  rw [h]
  exact List.all_eq_true.1 List.all_takeWhile

/-! ## Numbers -/

namespace Literal

section

variable [IdentifierTable]

/-- A character that a number in front of it does not take in. -/
def endsNumber (c : Char) :
    Bool := !isIdentifierPart c && c != '.' && c != '+' && c != '-'

theorem isIdentifierPart_of_endsNumber {c : Char} (h : endsNumber c = true) :
    isIdentifierPart c = false := by
  simp only [endsNumber, Bool.and_eq_true, Bool.not_eq_true'] at h
  exact h.1.1.1

theorem isDigit_of_not_part {c : Char} (h : isIdentifierPart c = false) :
    isDigit c = false := by
  cases hd : isDigit c with
  | false => rfl
  | true => simp [isIdentifierPart, hd] at h

theorem isLetter_of_not_part {c : Char} (h : isIdentifierPart c = false) :
    isLetter c = false := by
  cases hl : isLetter c with
  | false => rfl
  | true => simp [isIdentifierPart, hl] at h

theorem bar_of_not_part {c : Char} (h : isIdentifierPart c = false) :
    (c == '_') = false := by
  cases hb : c == '_' with
  | false => rfl
  | true => simp [isIdentifierPart, hb] at h

theorem isHexDigit_of_not_part {c : Char} (h : isIdentifierPart c = false) :
    isHexDigit c = false := by
  have hd := isDigit_of_not_part h
  have hl := isLetter_of_not_part h
  cases hx : isHexDigit c with
  | false => rfl
  | true =>
    simp only [isHexDigit, hd, Bool.false_or, Bool.or_eq_true, Bool.and_eq_true,
      decide_eq_true_eq] at hx
    simp only [isLetter, Bool.or_eq_false_iff, Bool.and_eq_false_iff, decide_eq_false_iff_not] at hl
    rcases hx with ⟨ha, hf⟩ | ⟨ha, hf⟩
    · rcases hl.1 with hl | hl
      · exact absurd ha hl
      · exact absurd (Char.le_trans hf (show 'f' ≤ 'z' by decide)) hl
    · rcases hl.2 with hl | hl
      · exact absurd ha hl
      · exact absurd (Char.le_trans hf (show 'F' ≤ 'Z' by decide)) hl

theorem isBaseLetter_of_not_part {c : Char} (h : isIdentifierPart c = false) :
    isBaseLetter c = false := by
  have hl := isLetter_of_not_part h
  cases hb : isBaseLetter c with
  | false => rfl
  | true =>
    simp only [isBaseLetter, List.contains_eq_mem, List.mem_cons, List.not_mem_nil, or_false,
      decide_eq_true_eq] at hb
    rcases hb with rfl | rfl | rfl | rfl | rfl | rfl <;> cases hl

end

theorem fractionLength_of_ne {c : Char} (h : c ≠ '.') (cs : List Char) :
    fractionLength (c :: cs) = 0 := by
  rw [fractionLength]
  intro ds hds
  exact h (List.cons.inj hds).1

theorem exponentLength_of_ne {e : Char} (h : (e == 'e' || e == 'E') = false) (cs : List Char) :
    exponentLength (e :: cs) = 0 := by
  simp [exponentLength, h]

theorem exponentLength_signed {e d : Char} (he : (e == 'e' || e == 'E') = true)
    (hd : (d == '+' || d == '-') = true) (cs : List Char) :
    exponentLength (e :: d :: cs) =
      if runLength isDigit cs = 0 then 0 else 2 + runLength isDigit cs := by
  have hs : d = '+' ∨ d = '-' := by simpa using hd
  simp [exponentLength, he, hs]

theorem exponentLength_plain {e d : Char} (he : (e == 'e' || e == 'E') = true)
    (hd : (d == '+' || d == '-') = false) (cs : List Char) :
    exponentLength (e :: d :: cs) =
      if runLength isDigit (d :: cs) = 0 then 0 else 1 + runLength isDigit (d :: cs) := by
  have hs : ¬ (d = '+' ∨ d = '-') := by simpa using hd
  simp [exponentLength, he, hs]

theorem exponentLength_single (e : Char) : exponentLength [e] = 0 := by
  simp [exponentLength, runLength]

theorem fractionLength_le (cs : List Char) : fractionLength cs ≤ cs.length := by
  unfold fractionLength
  split
  · rename_i cs
    have := runLength_le isDigitOrBar cs
    rw [List.length_cons]
    omega
  · omega

theorem exponentLength_le (cs : List Char) : exponentLength cs ≤ cs.length := by
  match cs with
  | [] => exact Nat.le_refl 0
  | [e] =>
    rw [exponentLength_single]
    exact Nat.zero_le _
  | e :: d :: cs =>
    have hcs := runLength_le isDigit cs
    have hdcs := runLength_le isDigit (d :: cs)
    simp only [List.length_cons] at hdcs ⊢
    cases he : e == 'e' || e == 'E' with
    | false =>
      rw [exponentLength_of_ne he]
      omega
    | true =>
      cases hd : d == '+' || d == '-' with
      | true =>
        rw [exponentLength_signed he hd]
        split <;> omega
      | false =>
        rw [exponentLength_plain he hd]
        split <;> omega

theorem whole_fraction_le (cs : List Char) :
    runLength isDigitOrBar cs + fractionLength (cs.drop (runLength isDigitOrBar cs)) ≤
      cs.length := by
  have hw := runLength_le isDigitOrBar cs
  have hf := fractionLength_le (cs.drop (runLength isDigitOrBar cs))
  rw [List.length_drop] at hf
  omega

theorem decimalLength_le (cs : List Char) : decimalLength cs ≤ cs.length := by
  have hf := whole_fraction_le cs
  have he := exponentLength_le (cs.drop
    (runLength isDigitOrBar cs + fractionLength (cs.drop (runLength isDigitOrBar cs))))
  rw [List.length_drop] at he
  simp only [decimalLength]
  omega

theorem numberLength_le (cs : List Char) : numberLength cs ≤ cs.length := by
  unfold numberLength
  split
  · rename_i c cs
    have := runLength_le isHexDigitOrBar cs
    split
    · simp only [List.length_cons]
      omega
    · exact decimalLength_le _
  · exact decimalLength_le _

section

variable [IdentifierTable]

theorem fractionLength_append {rest : List Char}
    (h : ∀ c, rest.head? = some c → endsNumber c = true) (cs : List Char) :
    fractionLength (cs ++ rest) = fractionLength cs := by
  have hrun : ∀ c, rest.head? = some c → isDigitOrBar c = false := by
    intro c hc
    have hp := isIdentifierPart_of_endsNumber (h c hc)
    simp [isDigitOrBar, isDigit_of_not_part hp, bar_of_not_part hp]
  cases cs with
  | nil =>
    cases rest with
    | nil => rfl
    | cons c rest =>
      have hc := h c rfl
      simp only [endsNumber, Bool.and_eq_true, bne_iff_ne, ne_eq] at hc
      rw [List.nil_append, fractionLength_of_ne hc.1.1.2]
      rfl
  | cons c cs =>
    by_cases hc : c = '.'
    · subst hc
      rw [List.cons_append, fractionLength, fractionLength, runLength_append hrun]
    · rw [List.cons_append, fractionLength_of_ne hc, fractionLength_of_ne hc]

theorem exponentLength_append {rest : List Char}
    (h : ∀ c, rest.head? = some c → endsNumber c = true) (cs : List Char) :
    exponentLength (cs ++ rest) = exponentLength cs := by
  have hrun : ∀ c, rest.head? = some c → isDigit c = false := fun c hc =>
    isDigit_of_not_part (isIdentifierPart_of_endsNumber (h c hc))
  match cs with
  | [] =>
    cases rest with
    | nil => rfl
    | cons c rest =>
      have hl := isLetter_of_not_part (isIdentifierPart_of_endsNumber (h c rfl))
      rw [List.nil_append, exponentLength_of_ne]
      · rfl
      · cases he : c == 'e' || c == 'E' with
        | false => rfl
        | true =>
          simp only [Bool.or_eq_true, beq_iff_eq] at he
          rcases he with rfl | rfl <;> cases hl
  | [e] =>
    cases rest with
    | nil => rfl
    | cons d rest =>
      rw [List.singleton_append, exponentLength_single]
      cases he : e == 'e' || e == 'E' with
      | false => rw [exponentLength_of_ne he]
      | true =>
        have hd := h d rfl
        have hzero := hrun d rfl
        simp only [endsNumber, Bool.and_eq_true, bne_iff_ne, ne_eq] at hd
        rw [exponentLength_plain he (by simp [hd.1.2, hd.2])]
        simp [runLength, hzero]
  | e :: d :: cs =>
    rw [List.cons_append, List.cons_append]
    cases he : e == 'e' || e == 'E' with
    | false => rw [exponentLength_of_ne he, exponentLength_of_ne he]
    | true =>
      cases hd : d == '+' || d == '-' with
      | true => rw [exponentLength_signed he hd, exponentLength_signed he hd, runLength_append hrun]
      | false =>
        rw [exponentLength_plain he hd, exponentLength_plain he hd, ← List.cons_append,
          runLength_append hrun]

theorem decimalLength_append {rest : List Char}
    (h : ∀ c, rest.head? = some c → endsNumber c = true) (cs : List Char) :
    decimalLength (cs ++ rest) = decimalLength cs := by
  have hrun : ∀ c, rest.head? = some c → isDigitOrBar c = false := by
    intro c hc
    have hp := isIdentifierPart_of_endsNumber (h c hc)
    simp [isDigitOrBar, isDigit_of_not_part hp, bar_of_not_part hp]
  simp only [decimalLength, runLength_append hrun]
  rw [List.drop_append_of_le_length (runLength_le _ _), fractionLength_append h,
    List.drop_append_of_le_length (whole_fraction_le cs), exponentLength_append h]

theorem numberLength_append {cs rest : List Char} (hcs : cs ≠ [])
    (h : ∀ c, rest.head? = some c → endsNumber c = true) :
    numberLength (cs ++ rest) = numberLength cs := by
  have hrun : ∀ c, rest.head? = some c → isHexDigitOrBar c = false := by
    intro c hc
    have hp := isIdentifierPart_of_endsNumber (h c hc)
    simp [isHexDigitOrBar, isHexDigit_of_not_part hp, bar_of_not_part hp]
  match cs, hcs with
  | [c], _ =>
    cases rest with
    | nil => rfl
    | cons d rest =>
      have hd := isBaseLetter_of_not_part (isIdentifierPart_of_endsNumber (h d rfl))
      have happ := decimalLength_append h [c]
      by_cases hc : c = '0'
      · subst hc
        simpa [numberLength, hd] using happ
      · simpa [numberLength, hc] using happ
  | c :: d :: cs, _ =>
    have happ := decimalLength_append h (c :: d :: cs)
    by_cases hc : c = '0'
    · subst hc
      simp only [List.cons_append, numberLength] at happ ⊢
      rw [happ, runLength_append hrun]
    · simpa [numberLength, hc] using happ

end

theorem fractionLength_take {cs : List Char} {n : Nat} (h : fractionLength cs ≤ n) :
    fractionLength (cs.take n) = fractionLength cs := by
  cases cs with
  | nil => simp
  | cons c cs =>
    by_cases hc : c = '.'
    · subst hc
      rw [fractionLength] at h
      obtain ⟨m, rfl⟩ : ∃ m, n = m + 1 := ⟨n - 1, by omega⟩
      rw [List.take_succ_cons, fractionLength, fractionLength, runLength_take (by omega)]
    · cases n with
      | zero => rw [fractionLength_of_ne hc, List.take_zero]; rfl
      | succ n => rw [List.take_succ_cons, fractionLength_of_ne hc, fractionLength_of_ne hc]

theorem runLength_take_of_pos {p : Char → Bool} {cs : List Char} (k : Nat) {n : Nat}
    (h : (if runLength p cs = 0 then 0 else k + runLength p cs) ≤ k + n) :
    runLength p (cs.take n) = runLength p cs := by
  refine runLength_take ?_
  split at h <;> omega

theorem exponentLength_take {cs : List Char} {n : Nat} (h : exponentLength cs ≤ n) :
    exponentLength (cs.take n) = exponentLength cs := by
  match cs, n with
  | [], _ => simp
  | _ :: _, 0 =>
    rw [Nat.le_zero.1 h]
    rfl
  | [e], _ + 1 => simp
  | e :: d :: cs, 1 =>
    -- one character is too short for an exponent, so there was none
    rw [List.take_succ_cons, List.take_zero, exponentLength_single]
    cases he : e == 'e' || e == 'E' with
    | false => rw [exponentLength_of_ne he]
    | true =>
      cases hd : d == '+' || d == '-' with
      | true =>
        rw [exponentLength_signed he hd] at h ⊢
        split at h
        · rename_i hz
          rw [if_pos hz]
        · omega
      | false =>
        rw [exponentLength_plain he hd] at h ⊢
        split at h
        · rename_i hz
          rw [if_pos hz]
        · omega
  | e :: d :: cs, n + 2 =>
    rw [List.take_succ_cons, List.take_succ_cons]
    cases he : e == 'e' || e == 'E' with
    | false => rw [exponentLength_of_ne he, exponentLength_of_ne he]
    | true =>
      cases hd : d == '+' || d == '-' with
      | true =>
        rw [exponentLength_signed he hd] at h ⊢
        rw [exponentLength_signed he hd, runLength_take_of_pos 2 (by omega)]
      | false =>
        rw [exponentLength_plain he hd] at h ⊢
        rw [exponentLength_plain he hd, ← List.take_succ_cons, runLength_take_of_pos 1 (by omega)]

theorem decimalLength_take {cs : List Char} {n : Nat} (h : decimalLength cs ≤ n) :
    decimalLength (cs.take n) = decimalLength cs := by
  simp only [decimalLength] at h ⊢
  rw [runLength_take (by omega), List.drop_take, fractionLength_take (by omega), List.drop_take,
    exponentLength_take (by omega)]

theorem numberLength_take {cs : List Char} {n : Nat} (hn : 0 < n) (h : numberLength cs ≤ n) :
    numberLength (cs.take n) = numberLength cs := by
  obtain ⟨m, rfl⟩ : ∃ m, n = m + 1 := ⟨n - 1, by omega⟩
  match cs with
  | [] => rfl
  | [c] => simp
  | c :: d :: cs =>
    by_cases hc : c = '0'
    · subst hc
      by_cases hd : isBaseLetter d = true
      · simp only [numberLength, hd, if_true] at h
        obtain ⟨l, rfl⟩ : ∃ l, m = l + 1 := ⟨m - 1, by omega⟩
        simp only [List.take_succ_cons, numberLength, hd, if_true]
        rw [runLength_take (by omega)]
      · simp only [numberLength, hd, if_false, Bool.false_eq_true] at h ⊢
        rw [← decimalLength_take h]
        cases m with
        | zero => rfl
        | succ l => simp only [List.take_succ_cons, hd, if_false, Bool.false_eq_true]
    · have hne : ∀ ds, numberLength (c :: ds) = decimalLength (c :: ds) := by
        intro ds
        rw [numberLength]
        intro _ _ hcs
        exact hc (List.cons.inj hcs).1
      rw [hne] at h ⊢
      rw [List.take_succ_cons, hne, ← List.take_succ_cons, decimalLength_take h]

/-! ## Regular expressions -/

theorem regexpBody_cons {c : Char} (hc : c ≠ '\\') (bracketed : Bool) (cs : List Char) :
    regexpBody bracketed (c :: cs) =
      if isLineBreak c then .unclosed
      else if c == '/' && !bracketed then { length := 1, closed := true }
      else .behind 1 (regexpBody ((bracketed || c == '[') && c != ']') cs) := by
  rw [regexpBody]
  · intro h _
    exact hc h
  · intro _ _ h _
    exact hc h

/-- The closing slash is found whatever follows it, and in any text that is long
enough to hold it. -/
theorem regexpBody_of_prefix {bracketed : Bool} {cs : List Char}
    (h : (regexpBody bracketed cs).closed = true) (ds : List Char)
    (hds : cs.take (regexpBody bracketed cs).length <+: ds) :
    regexpBody bracketed ds = regexpBody bracketed cs := by
  fun_induction regexpBody bracketed cs generalizing ds with
  | case1 => cases h
  | case2 => cases h
  | case3 => cases h
  | case4 bracketed c cs hc ih =>
    obtain ⟨tail, rfl⟩ := hds
    simp only [Extent.behind, Nat.add_comm 2, List.take_succ_cons, List.cons_append] at ih ⊢
    rw [regexpBody, if_neg hc, ih h _ ⟨tail, rfl⟩]
    simp only [Extent.behind, Nat.add_comm 2]
  | case5 => cases h
  | case6 bracketed c cs _ hne hb hc =>
    obtain ⟨tail, rfl⟩ := hds
    have hslash : c ≠ '\\' := by
      rintro rfl
      simp at hc
    rw [List.take_succ_cons, List.cons_append, regexpBody_cons hslash, if_neg hb, if_pos hc]
  | case7 bracketed c cs hnil hcons hb hc ih =>
    obtain ⟨tail, rfl⟩ := hds
    have hslash : c ≠ '\\' := by
      rintro rfl
      cases cs with
      | nil => exact hnil rfl rfl
      | cons d cs => exact hcons d cs rfl rfl
    simp only [Extent.behind, Nat.add_comm 1, List.take_succ_cons, List.cons_append] at ih ⊢
    rw [regexpBody_cons hslash, if_neg hb, if_neg hc, ih h _ ⟨tail, rfl⟩]
    simp only [Extent.behind, Nat.add_comm 1]

theorem regexpBody_length_le (bracketed : Bool) (cs : List Char) :
    (regexpBody bracketed cs).length ≤ cs.length := by
  fun_induction regexpBody bracketed cs with
  | case1 => simp [Extent.unclosed]
  | case2 => simp [Extent.unclosed, Extent.behind]
  | case3 => simp [Extent.unclosed, Extent.behind]
  | case4 bracketed c cs hc ih =>
    simp only [Extent.behind, List.length_cons]
    omega
  | case5 => simp [Extent.unclosed]
  | case6 => simp
  | case7 bracketed c cs _ _ _ _ ih =>
    simp only [Extent.behind, List.length_cons]
    omega

theorem regexpBody_length_pos {bracketed : Bool} {cs : List Char}
    (h : (regexpBody bracketed cs).closed = true) : 0 < (regexpBody bracketed cs).length := by
  fun_induction regexpBody bracketed cs with
  | case1 => cases h
  | case2 => cases h
  | case3 => cases h
  | case4 => exact Nat.lt_of_lt_of_le Nat.two_pos (Nat.le_add_right _ _)
  | case5 => cases h
  | case6 => exact Nat.one_pos
  | case7 => exact Nat.lt_of_lt_of_le Nat.one_pos (Nat.le_add_right _ _)

theorem regexp_append [IdentifierTable] {cs rest : List Char} (h : (regexp cs).closed = true)
    (hrest : ∀ c, rest.head? = some c → isIdentifierPart c = false) :
    regexp (cs ++ rest) = regexp cs := by
  cases cs with
  | nil => cases h
  | cons c cs =>
    simp only [regexp, List.cons_append] at h ⊢
    split at h
    · rename_i hb
      have hbody : regexpBody false (cs ++ rest) = regexpBody false cs :=
        regexpBody_of_prefix hb _ ((List.take_prefix _ _).trans (List.prefix_append cs rest))
      rw [hbody, if_pos hb, if_pos hb,
        List.drop_append_of_le_length (regexpBody_length_le false cs), runLength_append hrest]
    · rename_i hb
      exact absurd h hb

theorem regexp_take [IdentifierTable] {cs : List Char} (h : (regexp cs).closed = true) :
    regexp (cs.take (regexp cs).length) = regexp cs := by
  cases cs with
  | nil => cases h
  | cons c cs =>
    simp only [regexp] at h ⊢
    split at h
    · rename_i hb
      simp only [hb, if_true]
      rw [Nat.add_comm 1, Nat.add_right_comm, List.take_succ_cons]
      generalize hf : runLength isIdentifierPart (cs.drop (regexpBody false cs).length) = flags
      have hbody : regexpBody false (cs.take ((regexpBody false cs).length + flags)) =
          regexpBody false cs := by
        refine regexpBody_of_prefix hb _ ?_
        rw [List.prefix_take_iff]
        exact ⟨List.take_prefix _ _, by rw [List.length_take]; omega⟩
      simp only [hbody, hb, if_true]
      rw [List.drop_take, Nat.add_sub_cancel_left, runLength_take (by omega), hf,
        Nat.add_right_comm _ flags 1, Nat.add_comm _ 1]
    · rename_i hb
      exact absurd h hb

/-! ## Strings -/

/-- A character written as a backslash and a letter that denotes it. -/
theorem stringBody_letter {letter c : Char} {after : List Char}
    (h : Escape.read letter after = { value := [c] }) :
    stringBody '\x22' ('\\' :: letter :: after) = .behind 2 [c] (stringBody '\x22' after) := by
  rw [stringBody_escape (by decide), h]
  rfl

theorem twoDigits_read : ∀ n < 0x20, (Quoted.twoDigits n).length = 2 ∧
    (Quoted.twoDigits n).all isHexDigit = true ∧ hexNumber (Quoted.twoDigits n) = n := by
  decide

theorem read_twoDigits {c : Char} (hc : c.toNat < 0x20) (after : List Char) :
    Escape.read 'x' (Quoted.twoDigits c.toNat ++ after) = { value := [c], length := 2 } := by
  obtain ⟨hl, hx, hn⟩ := twoDigits_read c.toNat hc
  have htake : (Quoted.twoDigits c.toNat ++ after).take 2 = Quoted.twoDigits c.toNat := by
    rw [← hl, List.take_left]
  have hv : c.toNat.isValidChar := Or.inl (by omega)
  show Escape.digits 'x' 2 _ = _
  simp only [Escape.digits, htake, hl, hx, hn, Escape.codePoint, if_pos hv]
  simp [Char.ofNat_toNat]

/-- What a quoted character reads as in front of others.  The escape of a zero character
is no escape before a digit, where its letter stands for itself. -/
def reread (c : Char) (after : List Char) : Char :=
  if c == '\x00' && after.head?.any isDigit then '0' else c

theorem reread_of_ne {c : Char} (h : c ≠ '\x00') (after : List Char) : reread c after = c := by
  simp [reread, h]

theorem read_zero (after : List Char) :
    Escape.read '0' after = { value := [reread '\x00' after] } := by
  cases h : after.head?.any isDigit with
  | true =>
    have hbreak : isLineBreak '0' = false := by decide
    simp [Escape.read, reread, h, hbreak]
  | false => simp [Escape.read, reread, h]

theorem stringBody_character (c : Char) (after : List Char) :
    stringBody '\x22' (Quoted.character c ++ after) =
      .behind (Quoted.character c).length [reread c after] (stringBody '\x22' after) := by
  by_cases hz : c = '\x00'
  · subst hz
    exact stringBody_letter (read_zero after)
  rw [reread_of_ne hz]
  by_cases hq : c = '\x22'
  · subst hq
    exact stringBody_letter rfl
  by_cases hs : c = '\\'
  · subst hs
    exact stringBody_letter rfl
  by_cases hn : c = '\n'
  · subst hn
    exact stringBody_letter rfl
  by_cases hr : c = '\r'
  · subst hr
    exact stringBody_letter rfl
  by_cases ht : c = '\t'
  · subst ht
    exact stringBody_letter rfl
  by_cases hb : c = '\x08'
  · subst hb
    exact stringBody_letter rfl
  by_cases hf : c = '\x0c'
  · subst hf
    exact stringBody_letter rfl
  by_cases hv : c = '\x0b'
  · subst hv
    exact stringBody_letter rfl
  by_cases hl : c = '\u2028'
  · subst hl
    exact stringBody_escape (by decide) 'u' _
  by_cases hp : c = '\u2029'
  · subst hp
    exact stringBody_escape (by decide) 'u' _
  have hcases : Quoted.character c =
      if c.toNat < 0x20 then ['\\', 'x'] ++ Quoted.twoDigits c.toNat else [c] := by
    simp [Quoted.character, hq, hs, hn, hr, ht, hb, hf, hv, hz, hl, hp]
  rw [hcases]
  split
  · rename_i hc
    have hlen := (twoDigits_read c.toNat hc).1
    rw [List.append_assoc]
    show stringBody _ ('\\' :: 'x' :: (Quoted.twoDigits c.toNat ++ after)) = _
    have hdrop : (Quoted.twoDigits c.toNat ++ after).drop 2 = after := by rw [← hlen, List.drop_left]
    rw [stringBody_escape (by decide), read_twoDigits hc, hdrop, List.length_append, hlen]
    rfl
  · have hbreak : isLineBreak c = false := by simp [isLineBreak, hn, hr, hl, hp]
    exact stringBody_cons hq hbreak hs after

theorem character_of_isDigit {c : Char} (h : isDigit c = true) : Quoted.character c = [c] := by
  have hne : ∀ d, isDigit d = false → c ≠ d := by
    rintro d hd rfl
    rw [h] at hd
    cases hd
  have hc : ¬ c.toNat < 0x20 := by
    simp only [isDigit, Bool.and_eq_true, decide_eq_true_eq, Char.le_def,
      UInt32.le_iff_toNat_le] at h
    exact Nat.not_lt.2 (Nat.le_trans (by decide) h.1)
  simp [Quoted.character, hne '\x22' rfl, hne '\\' rfl, hne '\n' rfl, hne '\r' rfl, hne '\t' rfl,
    hne '\x08' rfl, hne '\x0c' rfl, hne '\x0b' rfl, hne '\x00' rfl, hne '\u2028' rfl,
    hne '\u2029' rfl, hc]

theorem character_cases (c : Char) :
    Quoted.character c = [c] ∨ (Quoted.character c).head? = some '\\' := by
  let P : List Char → Prop := fun q => q = [c] ∨ q.head? = some '\\'
  show P (Quoted.character c)
  unfold Quoted.character
  repeat' first
    | exact .inr rfl
    | refine iteInduction (motive := P) (fun _ => ?_) (fun _ => ?_)
  exact .inl rfl

theorem isDigit_head_character (c : Char) (cs : List Char) :
    (Quoted.character c ++ cs).head?.any isDigit = isDigit c := by
  cases h : isDigit c with
  | true => simp [character_of_isDigit h, h]
  | false =>
    rcases character_cases c with hc | hc
    · simp [hc, h]
    · obtain ⟨ds, hds⟩ : ∃ ds, Quoted.character c = '\\' :: ds := List.head?_eq_some_iff.1 hc
      rw [hds]
      rfl

def rereadAll : List Char → List Char
  | [] => []
  | c :: cs => reread c cs :: rereadAll cs

/-- Quoting the characters behind one makes no difference to what it reads as. -/
theorem reread_quoted (c : Char) (cs rest : List Char) :
    reread c (cs.flatMap Quoted.character ++ '\x22' :: rest) = reread c cs := by
  cases cs with
  | nil =>
    have hmark : isDigit '\x22' = false := by decide
    simp [reread, hmark]
  | cons d cs =>
    rw [List.flatMap_cons, List.append_assoc, reread, isDigit_head_character, reread]
    simp

theorem stringBody_quoted (value rest : List Char) :
    stringBody '\x22' (value.flatMap Quoted.character ++ '\x22' :: rest) =
      { length := (value.flatMap Quoted.character).length + 1, closed := true
        value := rereadAll value } := by
  induction value with
  | nil => exact stringBody_mark '\x22' rest
  | cons c cs ih =>
    rw [List.flatMap_cons, List.append_assoc, stringBody_character, reread_quoted, ih]
    simp [rereadAll, StringBody.behind, Extent.behind, Nat.add_assoc]

theorem reread_eq_self_iff {c : Char} {after : List Char} :
    reread c after = c ↔ (c = '\x00' → after.head?.any isDigit = false) := by
  by_cases hz : c = '\x00'
  · subst hz
    cases h : after.head?.any isDigit <;> simp [reread, h]
  · simp [reread_of_ne hz, hz]

/-- Characters read as themselves unless a zero character stands before a digit. -/
theorem rereadAll_eq_self_iff {value : List Char} :
    rereadAll value = value ↔ ∀ d, isDigit d = true → ¬ ['\x00', d] <:+: value := by
  induction value with
  | nil => simp [rereadAll]
  | cons c cs ih =>
    have hfirst : (c = '\x00' → cs.head?.any isDigit = false) ↔
        ∀ d, isDigit d = true → ¬ ['\x00', d] <+: c :: cs := by
      constructor
      · intro h d hd hprefix
        obtain ⟨hc, rest, rfl⟩ := List.cons_prefix_cons.1 hprefix
        have hnone := h hc.symm
        simp [hd] at hnone
      · rintro h rfl
        cases cs with
        | nil => rfl
        | cons d cs =>
          cases hd : isDigit d with
          | false => simp [hd]
          | true => exact absurd ⟨cs, rfl⟩ (h d hd)
    simp only [rereadAll, List.cons.injEq, reread_eq_self_iff, ih, hfirst, List.infix_cons_iff,
      not_or]
    exact ⟨fun h d hd => ⟨h.1 d hd, h.2 d hd⟩,
      fun h => ⟨fun d hd => (h d hd).1, fun d hd => (h d hd).2⟩⟩

end Literal

/-! ## Characters that begin tokens -/

namespace Text

def punctuationMarks : List Char := ['[', ']', '\x7b', '\x7d', '(', ')', ',', ';', ':']

theorem mem_punctuationMarks {c : Char} (h : isPunctuationMark c = true) : c ∈ punctuationMarks := by
  simpa [punctuationMarks, isPunctuationMark] using h

def signs : List Char :=
  ['>', '=', '!', '<', '*', '&', '|', '+', '-', '/', '%', '^', '~', '?']

theorem mem_signs {s : String} (h : s ∈ signOperators) : ∀ c ∈ s.toList, c ∈ signs := by
  have hall : ∀ s ∈ signOperators, s.toList.all (decide <| · ∈ signs) = true := by decide +kernel
  exact forall_mem_of_all (hall s h)

theorem no_sign_begins_iff {cs : List Char} :
    signOperators.all (fun sign => !cs.isPrefixOf sign.toList) = true ↔
      ∀ sign ∈ signOperators, ¬ cs <+: sign.toList := by
  simp only [List.all_eq_true, Bool.not_eq_true', ← Bool.not_eq_true, List.isPrefixOf_iff_prefix]

/-- No operator goes on with a character that is in none. -/
theorem no_sign_begins_of_not_mem {c : Char} (h : c ∉ signs) (cs : List Char) :
    signOperators.all (fun sign => !(cs ++ [c]).isPrefixOf sign.toList) = true := by
  refine no_sign_begins_iff.2 fun sign hsign hbegins => h ?_
  exact mem_signs hsign c (hbegins.subset (List.mem_append_right cs List.mem_cons_self))

/-- The characters that begin tokens other than words. -/
def openers : List Char :=
  signs ++ ['[', ']', '\x7b', '\x7d', '(', ')', ',', ';', ':', '.', '\x27', '\x22', '0', '1', '2',
    '3', '4', '5', '6', '7', '8', '9']

theorem isIdentifierStart_opener [IdentifierTable] {c : Char} (h : c ∈ openers) :
    isIdentifierStart c = false := by
  have hall : ∀ c ∈ openers, c.toNat ≤ 0x7f ∧ (c == '_' || c == '$' || isLetter c) = false :=
    forall_mem_of_all (by decide)
  obtain ⟨hle, hc⟩ := hall c h
  rw [isIdentifierStart_of_le hle, hc]

theorem ne_of_mem_openers [IdentifierTable] {c d : Char} (hc : isIdentifierStart c = true)
    (hd : d ∈ openers) :
    c ≠ d := by
  rintro rfl
  rw [isIdentifierStart_opener hd] at hc
  cases hc

theorem mem_openers_of_isDigit {c : Char} (h : isDigit c = true) : c ∈ openers := by
  simp only [isDigit, Bool.and_eq_true, decide_eq_true_eq] at h
  have hl : 48 ≤ c.toNat := h.1
  have hu : c.toNat ≤ 57 := h.2
  have hall : ∀ n < 10, Char.ofNat (48 + n) ∈ openers := by decide
  have hmem := hall (c.toNat - 48) (by omega)
  rwa [Nat.add_sub_cancel' hl, Char.ofNat_toNat] at hmem

/-- White space begins no token. -/
theorem isSpace_opener {c : Char} (h : c ∈ openers) : isSpace c = false := by
  have hall : ∀ c ∈ openers, isSpace c = false := forall_mem_of_all (by decide)
  exact hall c h

theorem isSpace_of_isIdentifierStart [IdentifierTable] {c : Char}
    (h : isIdentifierStart c = true) : isSpace c = false := by
  cases hs : isSpace c with
  | false => rfl
  | true =>
    have hpart := isIdentifierPart_of_start h
    rw [not_isIdentifierPart_of_isSpace hs] at hpart
    cases hpart

end Text

/-- The values that tokens of each kind have. -/
inductive Lexical [IdentifierTable] : TokenKind → String → Prop where
  | word {kind : TokenKind} {value : String} {c : Char} {cs : List Char}
      (spelling : value.toList = c :: cs) (start : isIdentifierStart c = true)
      (part : ∀ d ∈ cs, isIdentifierPart d = true) (kind_eq : wordKind value = kind) :
      Lexical kind value
  | point : Lexical .punctuation "."
  | mark {c : Char} (mark : isPunctuationMark c = true) :
      Lexical .punctuation (String.ofList [c])
  | sign {value : String} (mem : value ∈ signOperators) : Lexical .operator value
  | string (value : String) : Lexical .string value
  | number {value : String} {c : Char} {cs : List Char} (spelling : value.toList = c :: cs)
      (start : isDigit c = true ∨ (c = '.' ∧ cs.head?.any isDigit = true))
      (length : Literal.numberLength value.toList = value.toList.length) : Lexical .number value
  | regexp {value : String} {c : Char} {cs : List Char} (spelling : value.toList = '/' :: c :: cs)
      (body : c ≠ '/' ∧ c ≠ '*')
      (extent : Literal.regexp value.toList = { length := value.toList.length, closed := true }) :
      Lexical .regexp value
  | eof : Lexical .eof ""

/-- No comment and no white space stands first. -/
def startsToken : List Char → Bool
  | '/' :: '/' :: _ => false
  | '/' :: '*' :: _ => false
  | c :: _ => !isSpace c
  | [] => true

theorem startsToken_cons {c : Char} (hc : c ≠ '/') (hs : isSpace c = false) (cs : List Char) :
    startsToken (c :: cs) = true := by
  rw [startsToken, hs]
  · rfl
  · rintro _ rfl
    exact absurd rfl hc
  · rintro _ rfl
    exact absurd rfl hc

theorem startsToken_slash {c : Char} (hc : c ≠ '/' ∧ c ≠ '*') (cs : List Char) :
    startsToken ('/' :: c :: cs) = true := by
  rw [startsToken]
  · rfl
  · rintro _ _ h
    exact hc.1 (List.cons.inj h).1
  · rintro _ _ h
    exact hc.2 (List.cons.inj h).1

theorem startsToken_cons_iff {c : Char} {cs : List Char} :
    startsToken (c :: cs) = true ↔
      isSpace c = false ∧ (c = '/' → cs.head? ≠ some '/' ∧ cs.head? ≠ some '*') := by
  by_cases hc : c = '/'
  · subst hc
    have hspace : isSpace '/' = false := by decide
    cases cs with
    | nil => simp [startsToken, hspace]
    | cons d cs =>
      by_cases hslash : d = '/'
      · subst hslash
        simp [startsToken]
      by_cases hstar : d = '*'
      · subst hstar
        simp [startsToken]
      · simp [startsToken_slash ⟨hslash, hstar⟩, hspace, hslash, hstar]
  · rw [startsToken]
    · simp [hc]
    · rintro _ rfl
      exact absurd rfl hc
    · rintro _ rfl
      exact absurd rfl hc

theorem Gap.read_of_startsToken {c : Cursor} (h : startsToken c.rest = true) :
    Gap.read c = { cursor := c } := by
  rw [Gap.read]
  split
  · rename_i hrest
    rw [hrest] at h
    cases h
  · rename_i hrest
    rw [hrest] at h
    cases h
  · rename_i ch rest h1 h2 hrest
    rw [hrest, startsToken] at h
    · simp only [isSpace, Bool.not_eq_true', Bool.or_eq_false_iff] at h
      simp [h.1, h.2]
    · exact h1
    · exact h2
  · rfl

/-- A gap leaves the cursor where no comment and no white space stands. -/
theorem Gap.startsToken_read {c : Cursor} (h : (read c).unclosed = false) :
    startsToken (read c).cursor.rest = true := by
  fun_induction read c with
  | case1 c body hrest text after ih => exact ih h
  | case2 c body hrest text rest hc after ih => exact ih h
  | case3 => cases h
  | case4 c ch rest _ _ hrest hb _ ih => exact ih h
  | case5 c ch rest _ _ hrest hb hw ih => exact ih h
  | case6 c ch rest h1 h2 hrest hb hw =>
    rw [hrest, startsToken]
    · simp [isSpace, hb, hw]
    · exact h1
    · exact h2
  | case7 c hrest => rw [hrest]; rfl

section

variable [IdentifierTable]

theorem Lexical.of_number {c : Char} {cs : List Char}
    (h : isDigit c = true ∨ (c = '.' ∧ cs.head?.any isDigit = true)) :
    Lexical .number (String.ofList ((c :: cs).take (Literal.numberLength (c :: cs)))) := by
  have hpos : 0 < Literal.numberLength (c :: cs) := Literal.numberLength_pos (h.imp_right And.left)
  obtain ⟨n, hn⟩ : ∃ n, Literal.numberLength (c :: cs) = n + 1 := ⟨_, (Nat.sub_add_cancel hpos).symm⟩
  refine @Lexical.number _ _ c (cs.take n) ?_ ?_ ?_
  · rw [String.toList_ofList, hn, List.take_succ_cons]
  · refine h.imp_right fun ⟨hc, hd⟩ => ⟨hc, ?_⟩
    subst hc
    cases cs with
    | nil => cases hd
    | cons d cs =>
      -- the point and the digit behind it belong to the number
      have hrun : 0 < runLength Literal.isDigitOrBar (d :: cs) :=
        Literal.runLength_pos (by simpa [Literal.isDigitOrBar] using .inl hd)
      have hnumber : Literal.numberLength ('.' :: d :: cs) = Literal.decimalLength ('.' :: d :: cs) :=
        rfl
      have hlen : 1 + runLength Literal.isDigitOrBar (d :: cs) ≤
          Literal.decimalLength ('.' :: d :: cs) := by
        have hw : runLength Literal.isDigitOrBar ('.' :: d :: cs) = 0 := rfl
        simp only [Literal.decimalLength, hw, List.drop_zero, Literal.fractionLength]
        omega
      obtain ⟨m, rfl⟩ : ∃ m, n = m + 1 := ⟨n - 1, by omega⟩
      simpa using hd
  · rw [String.toList_ofList, Literal.numberLength_take hpos (Nat.le_refl _), List.length_take,
      Nat.min_eq_left (Literal.numberLength_le _)]

theorem Lexical.of_regexp {cs : List Char} (hs : startsToken ('/' :: cs) = true)
    (h : (Literal.regexp ('/' :: cs)).closed = true) :
    Lexical .regexp (String.ofList (('/' :: cs).take (Literal.regexp ('/' :: cs)).length)) := by
  have htake := Literal.regexp_take h
  have hbody : (Literal.regexpBody false cs).closed = true := by
    simp only [Literal.regexp] at h
    split at h
    · assumption
    · rename_i hb
      exact absurd h hb
  have hlen : (Literal.regexp ('/' :: cs)).length =
      1 + (Literal.regexpBody false cs).length +
        runLength isIdentifierPart (cs.drop (Literal.regexpBody false cs).length) := by
    simp [Literal.regexp, hbody]
  have hpos := Literal.regexpBody_length_pos hbody
  have hle := Literal.regexpBody_length_le false cs
  have hflags := runLength_le isIdentifierPart (cs.drop (Literal.regexpBody false cs).length)
  rw [List.length_drop] at hflags
  cases cs with
  | nil => cases hbody
  | cons c cs =>
    obtain ⟨n, hn⟩ : ∃ n, (Literal.regexp ('/' :: c :: cs)).length = n + 2 :=
      ⟨(Literal.regexp ('/' :: c :: cs)).length - 2, by omega⟩
    refine @Lexical.regexp _ _ c (cs.take n) ?_ ?_ ?_
    · rw [String.toList_ofList, hn, List.take_succ_cons, List.take_succ_cons]
    · constructor
      · rintro rfl
        cases hs
      · rintro rfl
        cases hs
    · rw [String.toList_ofList, htake, List.length_take, Nat.min_eq_left]
      · cases hx : Literal.regexp ('/' :: c :: cs) with
        | mk length closed =>
          rw [hx] at h
          cases h
          rfl
      · simp only [List.length_cons] at hle hflags ⊢
        omega

theorem Lexical.of_word {c : Char} (h : isIdentifierStart c = true)
    (cs : List Char) :
    Lexical (wordKind (String.ofList ((c :: cs).take (runLength isIdentifierPart (c :: cs)))))
      (String.ofList ((c :: cs).take (runLength isIdentifierPart (c :: cs)))) := by
  have hrun : runLength isIdentifierPart (c :: cs) = runLength isIdentifierPart cs + 1 := by
    simp [runLength, isIdentifierPart_of_start h]
  refine @Lexical.word _ _ _ c (cs.take (runLength isIdentifierPart cs)) ?_ h
    (all_take_runLength _ cs) rfl
  rw [String.toList_ofList, hrun, List.take_succ_cons]

/-- A token that is cut off behind a gap has a value of its kind. -/
theorem Cut.lexical_read {allowed : Bool} {cs : List Char} {kind : TokenKind}
    {length : Nat}
    {value : String} (hs : startsToken cs = true)
    (h : read allowed cs = .token kind length value) : Lexical kind value := by
  cases cs with
  | nil =>
    simp only [read, token.injEq] at h
    obtain ⟨rfl, -, rfl⟩ := h
    exact .eof
  | cons c rest =>
    simp only [read] at h
    split at h
    · rename_i hmark
      simp only [spelled, token.injEq] at h
      obtain ⟨rfl, -, rfl⟩ := h
      exact .mark hmark
    split at h
    · rename_i hdot
      have hdot : c = '.' := by simpa using hdot
      subst hdot
      split at h
      · rename_i hdigit
        simp only [spelled, token.injEq] at h
        obtain ⟨rfl, -, rfl⟩ := h
        exact .of_number (.inr ⟨rfl, hdigit⟩)
      · simp only [spelled, token.injEq] at h
        obtain ⟨rfl, -, rfl⟩ := h
        exact .point
    split at h
    · simp only [string] at h
      split at h
      · simp only [token.injEq] at h
        obtain ⟨rfl, -, rfl⟩ := h
        exact .string _
      · cases h
    split at h
    · rename_i hd
      simp only [spelled, token.injEq] at h
      obtain ⟨rfl, -, rfl⟩ := h
      exact .of_number (.inl hd)
    split at h
    · rename_i hslash
      simp only [Bool.and_eq_true, beq_iff_eq] at hslash
      obtain ⟨rfl, -⟩ := hslash
      simp only [regexp] at h
      split at h
      · rename_i hc
        simp only [spelled, token.injEq] at h
        obtain ⟨rfl, -, rfl⟩ := h
        exact .of_regexp hs hc
      · cases h
    split at h
    · rename_i hstart
      simp only [word, spelled, token.injEq] at h
      obtain ⟨rfl, -, rfl⟩ := h
      exact .of_word hstart rest
    split at h
    · rename_i sign hsign
      simp only [token.injEq] at h
      obtain ⟨rfl, -, rfl⟩ := h
      exact .sign (List.mem_of_find?_eq_some hsign)
    · cases h

end

/-! ## Reading a spelling back -/

namespace Token

/-- Whether the token ends before a character that follows it directly. -/
def endsBefore [IdentifierTable] (t : Token) (c : Char) : Bool :=
  match t.kind with
  | .name | .keyword | .atom | .regexp => !isIdentifierPart c
  | .number => Literal.endsNumber c
  | .operator =>
    if wordOperators.contains t.value then !isIdentifierPart c
    else
      signOperators.all (fun sign => !(t.value.toList ++ [c]).isPrefixOf sign.toList) &&
        !(t.value == "/" && (c == '/' || c == '*'))
  | .punctuation => !(t.value == "." && isDigit c)
  | .string | .eof => true

/-- The characters behind the token leave it alone. -/
def Free [IdentifierTable] (t : Token) (rest : List Char) : Prop :=
  ∀ c, rest.head? = some c → t.endsBefore c = true

theorem free_nil [IdentifierTable] (t : Token) : t.Free [] := by
  intro c hc
  cases hc

/-- Whether a slash may be what the token takes it for. -/
def fits (allowed : Bool) (t : Token) : Bool :=
  match t.kind with
  | .regexp => allowed
  | .operator => !(allowed && (t.value == "/" || t.value == "/="))
  | _ => true

end Token

theorem wordKind_cases (value : String) :
    wordKind value = .keyword ∨ (wordKind value = .operator ∧ wordOperators.contains value = true) ∨
      wordKind value = .atom ∨ wordKind value = .name := by
  unfold wordKind
  split
  · exact .inl rfl
  split
  · rename_i h
    exact .inr (.inl ⟨rfl, h⟩)
  split
  · exact .inr (.inr (.inl rfl))
  · exact .inr (.inr (.inr rfl))

namespace Cut

/-- No operator is longer than `value` where `rest` follows it. -/
theorem isPrefixOf_sign {value : String} {rest : List Char}
    (hrest : ∀ c, rest.head? = some c →
      signOperators.all (fun sign => !(value.toList ++ [c]).isPrefixOf sign.toList) = true)
    {sign : String} (hsign : sign ∈ signOperators) :
    sign.toList.isPrefixOf (value.toList ++ rest) = sign.toList.isPrefixOf value.toList := by
  rw [Bool.eq_iff_iff, List.isPrefixOf_iff_prefix, List.isPrefixOf_iff_prefix]
  constructor
  · intro hp
    rcases Nat.lt_or_ge value.toList.length sign.toList.length with hlt | hge
    · -- then the operator goes on with the first character of `rest`
      exfalso
      obtain ⟨tail, htail⟩ := List.prefix_of_prefix_length_le (List.prefix_append _ rest) hp
        (Nat.le_of_lt hlt)
      rw [← htail, List.prefix_append_right_inj] at hp
      obtain ⟨c, ts, rfl⟩ : ∃ c ts, tail = c :: ts := by
        cases tail with
        | nil =>
          rw [← htail] at hlt
          simp at hlt
        | cons c ts => exact ⟨c, ts, rfl⟩
      obtain ⟨more, rfl⟩ := hp
      have hlonger : value.toList ++ [c] <+: sign.toList := ⟨ts, by rw [← htail]; simp⟩
      exact no_sign_begins_iff.1 (hrest c rfl) sign hsign hlonger
    · exact List.prefix_of_prefix_length_le hp (List.prefix_append _ rest) hge
  · intro hp
    exact hp.trans (List.prefix_append _ rest)

theorem signOperator?_spelling {value : String} (h : value ∈ signOperators) {rest : List Char}
    (hrest : ∀ c, rest.head? = some c →
      signOperators.all (fun sign => !(value.toList ++ [c]).isPrefixOf sign.toList) = true) :
    signOperator? (value.toList ++ rest) = some value := by
  have hself : ∀ v ∈ signOperators, signOperators.find? (·.toList.isPrefixOf v.toList) = some v := by
    decide +kernel
  rw [signOperator?, List.find?_congr fun sign hsign => isPrefixOf_sign hrest hsign, hself value h]

variable [IdentifierTable]

theorem read_word {c : Char} {cs : List Char} (h : isIdentifierStart c = true)
    (allowed : Bool) : read allowed (c :: cs) = word (c :: cs) := by
  have hmark : isPunctuationMark c = false := by
    cases hm : isPunctuationMark c with
    | false => rfl
    | true =>
      have hall : ∀ d ∈ punctuationMarks, d ∈ openers := forall_mem_of_all (by decide)
      have hmem := hall c (mem_punctuationMarks hm)
      exact absurd rfl (ne_of_mem_openers h hmem)
  have hdigit : isDigit c = false := by
    cases hd : isDigit c with
    | false => rfl
    | true => exact absurd rfl (ne_of_mem_openers h (mem_openers_of_isDigit hd))
  have hdot : c ≠ '.' := ne_of_mem_openers h (by decide)
  have hone : c ≠ '\x27' := ne_of_mem_openers h (by decide)
  have htwo : c ≠ '\x22' := ne_of_mem_openers h (by decide)
  have hslash : c ≠ '/' := ne_of_mem_openers h (by decide)
  simp [read, hmark, hdigit, hdot, hone, htwo, hslash, h]

theorem word_spelling {value : String} {rest : List Char}
    (h : ∀ d ∈ value.toList, isIdentifierPart d = true)
    (hrest : ∀ d, rest.head? = some d → isIdentifierPart d = false) :
    word (value.toList ++ rest) = .token (wordKind value) value.toList.length value := by
  have hrun : runLength isIdentifierPart (value.toList ++ rest) = value.toList.length := by
    rw [runLength_append hrest, runLength_eq_length h]
  simp only [word, spelled, hrun, List.take_left, String.ofList_toList]

theorem read_sign {allowed : Bool} {value : String} {c : Char}
    {cs rest : List Char}
    (hv : value.toList = c :: cs) (h : value ∈ signOperators)
    (ha : c = '/' → allowed = false)
    (hrest : ∀ d, rest.head? = some d →
      signOperators.all (fun sign => !(value.toList ++ [d]).isPrefixOf sign.toList) = true) :
    read allowed (value.toList ++ rest) = .token .operator value.length value := by
  have hmem : c ∈ signs := mem_signs h c (by rw [hv]; exact List.mem_cons_self)
  have hno : ∀ d ∈ signs, isPunctuationMark d = false ∧ isDigit d = false ∧ d ≠ '.' ∧
      d ≠ '\x27' ∧ d ≠ '\x22' := forall_mem_of_all (by decide)
  obtain ⟨hmark, hdigit, hdot, hone, htwo⟩ := hno c hmem
  have hstart := isIdentifierStart_opener (List.mem_append_left _ hmem : c ∈ openers)
  have hslash : (c == '/' && allowed) = false := by
    rw [Bool.and_eq_false_iff, beq_eq_false_iff_ne]
    by_cases hc : c = '/'
    · exact .inr (ha hc)
    · exact .inl hc
  have hsign := signOperator?_spelling h hrest
  rw [hv, List.cons_append] at hsign ⊢
  simp only [read, hmark, Bool.false_eq_true, if_false, beq_iff_eq, hdot, hone, htwo,
    hdigit, hslash, hstart, hsign, Bool.or_eq_true, or_false]

theorem read_number {allowed : Bool} {value : String} {c : Char}
    {cs rest : List Char}
    (hv : value.toList = c :: cs)
    (hstart : isDigit c = true ∨ (c = '.' ∧ cs.head?.any isDigit = true))
    (hlen : Literal.numberLength value.toList = value.toList.length)
    (hrest : ∀ d, rest.head? = some d → Literal.endsNumber d = true) :
    read allowed (value.toList ++ rest) = .token .number value.toList.length value := by
  have hnumber : Literal.numberLength (value.toList ++ rest) = value.toList.length := by
    rw [Literal.numberLength_append (by rw [hv]; exact List.cons_ne_nil c cs) hrest, hlen]
  have hspelled : spelled .number (value.toList ++ rest)
      (Literal.numberLength (value.toList ++ rest)) =
      .token .number value.toList.length value := by
    rw [hnumber, spelled, List.take_left, String.ofList_toList]
  rw [← hspelled, hv, List.cons_append]
  rcases hstart with hd | ⟨rfl, hd⟩
  · have hno : ∀ d, isDigit d = false → c ≠ d := by
      rintro d hd' rfl
      rw [hd] at hd'
      cases hd'
    have hmark : isPunctuationMark c = false := by
      cases hm : isPunctuationMark c with
      | false => rfl
      | true =>
        have hall : ∀ d ∈ punctuationMarks, isDigit d = false := forall_mem_of_all (by decide)
        exact absurd rfl (hno c (hall c (mem_punctuationMarks hm)))
    simp [read, hmark, hno '.' rfl, hno '\x27' rfl, hno '\x22' rfl, hd]
  · have hhead : (cs ++ rest).head?.any isDigit = true := by
      cases cs with
      | nil => cases hd
      | cons d cs => exact hd
    show (if (cs ++ rest).head?.any isDigit then _ else _) = _
    rw [if_pos hhead]

theorem read_regexp {value : String} {c : Char} {cs rest : List Char}
    (hv : value.toList = '/' :: c :: cs)
    (hextent : Literal.regexp value.toList = { length := value.toList.length, closed := true })
    (hrest : ∀ d, rest.head? = some d → isIdentifierPart d = false) :
    read true (value.toList ++ rest) = .token .regexp value.toList.length value := by
  have happ : Literal.regexp (value.toList ++ rest) =
      { length := value.toList.length, closed := true } := by
    rw [Literal.regexp_append (by rw [hextent]) hrest, hextent]
  have hread : read true (value.toList ++ rest) = regexp (value.toList ++ rest) := by
    rw [hv, List.cons_append, List.cons_append]
    rfl
  rw [hread, regexp, happ]
  simp only [if_true, spelled, List.take_left, String.ofList_toList]

theorem read_string (allowed : Bool) (value : String) (rest : List Char) :
    read allowed ((quoted value).toList ++ rest) =
      .token .string (quoted value).toList.length
        (String.ofList (Literal.rereadAll value.toList)) := by
  have hbody := Literal.stringBody_quoted value.toList rest
  have hquoted : (quoted value).toList ++ rest =
      '\x22' :: (value.toList.flatMap Quoted.character ++ '\x22' :: rest) := by
    simp [quoted, Quoted.characters]
  have hread : read allowed ((quoted value).toList ++ rest) =
      string '\x22' (value.toList.flatMap Quoted.character ++ '\x22' :: rest) := by
    rw [hquoted]
    rfl
  rw [hread, string_eq, hbody]
  simp [quoted, Quoted.characters, Nat.add_comm]

end Cut

namespace Token

theorem spelling_of_ne {t : Token} (h : t.kind ≠ .string) : Printer.spelling t = t.value := by
  simp [Printer.spelling, h]

/-- The token that the spelling reads as.  Of a string it may differ in the value. -/
def reread (t : Token) : Token :=
  if t.kind = .string then { t with value := String.ofList (Literal.rereadAll t.value.toList) }
  else t

theorem reread_of_ne {t : Token} (h : t.kind ≠ .string) : t.reread = t := if_neg h

@[simp] theorem reread_kind (t : Token) : t.reread.kind = t.kind := by
  unfold reread
  split <;> rfl

@[simp] theorem reread_endsValue (t : Token) : t.reread.endsValue = t.endsValue := by
  unfold reread
  split
  · rename_i h
    simp [endsValue, h]
  · rfl

/-- Of the signs only those of division begin with a slash. -/
theorem exists_first_of_sign {value : String} (h : value ∈ signOperators) :
    ∃ c cs, value.toList = c :: cs ∧ isSpace c = false ∧
      (c = '/' → value = "/" ∨ value = "/=") := by
  have hshape : ∀ v ∈ signOperators, v.toList.head?.any (fun c =>
      decide ((c = '/' → v = "/" ∨ v = "/=") ∧ isSpace c = false)) = true := by decide +kernel
  obtain ⟨c, hc, hfirst⟩ := (Option.any_eq_true _ _).1 (hshape value h)
  obtain ⟨hslash, hspace⟩ := of_decide_eq_true hfirst
  obtain ⟨cs, hv⟩ := List.head?_eq_some_iff.1 hc
  exact ⟨c, cs, hv, hspace, hslash⟩

variable [IdentifierTable]

/-- What leaves a sign alone makes no longer one, and no comment of a slash. -/
theorem Free.sign {t : Token} {rest : List Char} (h : t.Free rest)
    (hkind : t.kind = .operator)
    (hmem : t.value ∈ signOperators) {d : Char} (hd : rest.head? = some d) :
    signOperators.all (fun sign => !(t.value.toList ++ [d]).isPrefixOf sign.toList) = true ∧
      (t.value = "/" → d ≠ '/' ∧ d ≠ '*') := by
  have hnot : ∀ v ∈ signOperators, wordOperators.contains v = false := by decide
  have hends := h d hd
  simp only [endsBefore, hkind, hnot t.value hmem, Bool.false_eq_true, if_false,
    Bool.and_eq_true, Bool.not_eq_true', Bool.and_eq_false_iff, beq_eq_false_iff_ne,
    Bool.or_eq_false_iff] at hends
  exact ⟨hends.1, fun hv => hends.2.resolve_left fun h => h hv⟩

/-- What leaves a word alone is no part of it. -/
theorem Free.word {t : Token} {rest : List Char} (h : t.Free rest)
    (hkind : wordKind t.value = t.kind)
    {d : Char} (hd : rest.head? = some d) : isIdentifierPart d = false := by
  have hends := h d hd
  rw [endsBefore, ← hkind] at hends
  rcases wordKind_cases t.value with h | ⟨h, hword⟩ | h | h <;> rw [h] at hends
  · simpa using hends
  · simp only [hword, if_true] at hends
    simpa using hends
  · simpa using hends
  · simpa using hends

/-- The spelling of a token is cut off as that token. -/
theorem cut_spelling {t : Token} {allowed : Bool} {rest : List Char}
    (hl : Lexical t.kind t.value) (he : t.kind ≠ .eof) (hf : t.fits allowed = true)
    (hrest : t.Free rest) :
    Cut.read allowed ((Printer.spelling t).toList ++ rest) =
      .token t.kind (Printer.spelling t).toList.length t.reread.value := by
  obtain ⟨kind, value, location, lineBreak, inserted, comments⟩ := t
  simp only [fits] at hl he hf hrest ⊢
  cases hl with
  | @word _ _ c cs hv hstart hpart hk =>
    have hne : kind ≠ .string := by
      rintro rfl
      rcases wordKind_cases value with h | ⟨h, -⟩ | h | h <;> rw [h] at hk <;> cases hk
    have hall : ∀ d ∈ value.toList, isIdentifierPart d = true := by
      rw [hv]
      intro d hd
      rcases List.mem_cons.1 hd with rfl | hd
      · exact isIdentifierPart_of_start hstart
      · exact hpart d hd
    rw [reread_of_ne hne, spelling_of_ne hne, ← hk,
      ← Cut.word_spelling hall fun d hd => hrest.word hk hd]
    simp only [hv, List.cons_append]
    exact Cut.read_word hstart allowed
  | point =>
    have hend : rest.head?.any isDigit = false := by
      cases hh : rest.head? with
      | none => rfl
      | some d => simpa [endsBefore] using hrest d hh
    have hpoint : ".".toList = ['.'] := by decide
    rw [reread_of_ne (by simp), spelling_of_ne (by simp), hpoint, List.singleton_append]
    show (if rest.head?.any isDigit then _ else _) = _
    rw [hend]
    rfl
  | @mark c hmark =>
    rw [reread_of_ne (by simp), spelling_of_ne (by simp), String.toList_ofList,
      List.singleton_append, Cut.read, if_pos hmark]
    rfl
  | sign hmem =>
    obtain ⟨c, cs, hv, -, hslash⟩ := exists_first_of_sign hmem
    rw [reread_of_ne (by simp), spelling_of_ne (by simp), String.length_toList]
    refine Cut.read_sign hv hmem (fun h => ?_) fun d hd => (hrest.sign rfl hmem hd).1
    cases allowed with
    | false => rfl
    | true => rcases hslash h with rfl | rfl <;> cases hf
  | string _ => exact Cut.read_string allowed value rest
  | number hv hstart hlen =>
    rw [reread_of_ne (by simp), spelling_of_ne (by simp)]
    exact Cut.read_number hv hstart hlen hrest
  | regexp hv _ hextent =>
    subst hf
    have hend : ∀ d, rest.head? = some d → isIdentifierPart d = false := by
      intro d hd
      simpa [endsBefore] using hrest d hd
    rw [reread_of_ne (by simp), spelling_of_ne (by simp)]
    exact Cut.read_regexp hv hextent hend
  | eof => exact absurd rfl he

/-- No gap takes anything of a spelling. -/
theorem startsToken_spelling {t : Token} {rest : List Char}
    (hl : Lexical t.kind t.value)
    (he : t.kind ≠ .eof) (hrest : t.Free rest) :
    startsToken ((Printer.spelling t).toList ++ rest) = true := by
  by_cases hstring : t.kind = .string
  · have hspell : Printer.spelling t = quoted t.value := by simp [Printer.spelling, hstring]
    rw [hspell, quoted, String.toList_ofList, Quoted.characters, List.cons_append]
    exact startsToken_cons (by decide) (by decide) _
  rw [spelling_of_ne hstring]
  obtain ⟨kind, value, location, lineBreak, inserted, comments⟩ := t
  cases hl with
  | word hv hstart =>
    rw [hv, List.cons_append]
    refine startsToken_cons ?_ (isSpace_of_isIdentifierStart hstart) _
    rintro rfl
    rw [isIdentifierStart_opener (by decide)] at hstart
    cases hstart
  | point =>
    have hpoint : ".".toList = ['.'] := by decide
    show startsToken (".".toList ++ rest) = true
    rw [hpoint, List.singleton_append]
    exact startsToken_cons (by decide) (by decide) rest
  | @mark c hmark =>
    have hall : ∀ d ∈ punctuationMarks, d ≠ '/' ∧ isSpace d = false :=
      forall_mem_of_all (by decide)
    obtain ⟨hslash, hspace⟩ := hall c (mem_punctuationMarks hmark)
    show startsToken ((String.ofList [c]).toList ++ rest) = true
    rw [String.toList_ofList]
    exact startsToken_cons hslash hspace _
  | sign hmem =>
    obtain ⟨c, cs, hv, hspace, hslash⟩ := exists_first_of_sign hmem
    by_cases h : c = '/'
    · rcases hslash h with rfl | rfl
      · have hone : "/".toList = ['/'] := by decide
        rw [hone, List.singleton_append]
        cases hr : rest with
        | nil => rfl
        | cons d rest =>
          have hd := (hrest.sign rfl hmem (by rw [hr]; rfl)).2 rfl
          exact startsToken_slash hd rest
      · have htwo : "/=".toList = ['/', '='] := by decide
        rw [htwo]
        exact startsToken_slash (by decide) rest
    · rw [hv, List.cons_append]
      exact startsToken_cons h hspace _
  | string => exact absurd rfl hstring
  | number hv hstart =>
    rw [hv, List.cons_append]
    rcases hstart with hd | ⟨rfl, -⟩
    · have hmem := mem_openers_of_isDigit hd
      refine startsToken_cons ?_ (isSpace_opener hmem) _
      rintro rfl
      cases hd
    · exact startsToken_cons (by decide) (by decide) _
  | regexp hv hbody =>
    rw [hv, List.cons_append, List.cons_append]
    exact startsToken_slash hbody _
  | eof => exact absurd rfl he

end Token
end ScriptOutline
