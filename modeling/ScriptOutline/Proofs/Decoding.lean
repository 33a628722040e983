/-
A string has the same value however it is decoded.

`Literal.stringBody` makes the value of a string from its first character on.  A scan keeps the
stretch of the text instead, copies it at the first escape, and writes out only what follows.  It
counts bytes, also those that an escape looks ahead over.  At every place of a string the two have
made the same value of the same characters, so they end at the same byte, closed or not.
-/
import ScriptOutline.Proofs.Columns

namespace ScriptOutline

open Text

theorem Lines.takeBytes_append (pre post : List Char) :
    takeBytes (pre ++ post) (byteLength pre) = pre := by
  induction pre with
  | nil =>
    cases post with
    | nil => rfl
    | cons c post =>
      have hpos := c.utf8Size_pos
      rw [List.nil_append, takeBytes, if_neg]
      exact Nat.not_le.2 hpos
  | cons c pre ih =>
    rw [List.cons_append, takeBytes, byteLength, if_pos (Nat.le_add_right _ _),
      Nat.add_sub_cancel_left, ih]

theorem Text.byteLength_of_forall {cs : List Char} (h : ∀ c ∈ cs, c.utf8Size = 1) :
    byteLength cs = cs.length := by
  induction cs with
  | nil => rfl
  | cons c cs ih =>
    rw [List.forall_mem_cons] at h
    rw [byteLength, h.1, ih h.2, List.length_cons, Nat.add_comm]

theorem Text.utf8Size_of_isHexDigit {c : Char} (h : isHexDigit c = true) : c.utf8Size = 1 := by
  simp only [isHexDigit, isDigit, Bool.or_eq_true, Bool.and_eq_true, decide_eq_true_eq,
    Char.le_def, UInt32.le_iff_toNat_le] at h
  rw [Char.utf8Size_eq_one_iff, UInt32.le_iff_toNat_le]
  have h9 : ('9' : Char).val.toNat = 57 := rfl
  have hf : ('f' : Char).val.toNat = 102 := rfl
  have hF : ('F' : Char).val.toNat = 70 := rfl
  have hlast : (127 : UInt32).toNat = 127 := rfl
  omega

namespace Literal

namespace Escape

theorem read_brace (cs : List Char) : read 'u' ('\x7b' :: cs) = braces cs := rfl

theorem read_u {cs : List Char} (h : cs.head? ≠ some '\x7b') : read 'u' cs = digits 'u' 4 cs := by
  simp only [read, Char.reduceBEq, Bool.false_and, Bool.false_eq_true, if_false, if_true]
  split
  · exact absurd rfl h
  · rfl

theorem read_length_eq_zero {letter : Char} (hx : letter ≠ 'x') (hu : letter ≠ 'u')
    (hr : letter ≠ '\r') (cs : List Char) : (read letter cs).length = 0 := by
  simp only [read, beq_iff_eq, hx, hu, hr, if_false]
  repeat' split
  all_goals rfl

/-- The characters `tail` in front of `cs` are as many as the escape takes, and of one byte each. -/
structure Takes (e : Escape) (tail cs : List Char) : Prop where
  front : tail <+: cs
  length : tail.length = e.length
  bytes : byteLength tail = e.length

theorem takes_nil {e : Escape} (h : e.length = 0) (cs : List Char) : e.Takes [] cs where
  front := List.nil_prefix
  length := h.symm
  bytes := h.symm

theorem exists_takes_digits (letter : Char) (n : Nat) (cs : List Char) :
    ∃ tail, (digits letter n cs).Takes tail cs := by
  simp only [digits]
  split
  · rename_i h
    rw [Bool.and_eq_true, beq_iff_eq, List.all_eq_true] at h
    have hbytes := byteLength_of_forall fun c hc => utf8Size_of_isHexDigit (h.2 c hc)
    exact ⟨cs.take n, List.take_prefix n cs, h.1, hbytes.trans h.1⟩
  · exact ⟨[], takes_nil rfl cs⟩

theorem utf8Size_of_braced? {inner : List Char} {n : Nat} (h : braced? inner = some n) :
    ∀ c ∈ inner, c.utf8Size = 1 := by
  simp only [braced?, Option.ite_none_right_eq_some, Bool.and_eq_true, List.all_eq_true] at h
  obtain ⟨⟨⟨-, hrun⟩, -⟩, -⟩ := h
  split at hrun
  · rename_i hplus
    obtain ⟨run, rfl⟩ := List.head?_eq_some_iff.1 (beq_iff_eq.1 hplus)
    exact List.forall_mem_cons.2 ⟨rfl, fun c hc => utf8Size_of_isHexDigit (hrun c hc)⟩
  · exact fun c hc => utf8Size_of_isHexDigit (hrun c hc)

theorem exists_takes_braces (cs : List Char) : ∃ tail, (braces cs).Takes tail ('\x7b' :: cs) := by
  simp only [braces]
  split
  · rename_i n hn
    have hinner := byteLength_of_forall (utf8Size_of_braced? hn)
    generalize hrun : cs.takeWhile (· != '\x7d') = inner at hinner
    split
    · rename_i hlt
      -- the run stops in front of a brace
      obtain ⟨rest, hcs⟩ : ∃ rest, cs = inner ++ '\x7d' :: rest := by
        have hsplit := List.takeWhile_append_dropWhile (p := (· != '\x7d')) (l := cs)
        rw [hrun] at hsplit
        cases hrest : cs.dropWhile (· != '\x7d') with
        | nil =>
          rw [hrest, List.append_nil] at hsplit
          rw [hsplit] at hlt
          exact absurd hlt (Nat.lt_irrefl _)
        | cons c rest =>
          have hstop := List.head?_dropWhile_not (· != '\x7d') cs
          rw [hrest] at hstop
          have hc : c = '\x7d' := by simpa using hstop
          exact ⟨rest, by rw [← hsplit, hrest, hc]⟩
      refine ⟨'\x7b' :: (inner ++ ['\x7d']), ⟨rest, ?_⟩, ?_, ?_⟩
      · rw [hcs]
        simp
      · simp
      · rw [byteLength, byteLength_append, hinner]
        show 1 + (inner.length + 1) = inner.length + 2
        omega
    · exact ⟨[], takes_nil rfl _⟩
  · exact ⟨[], takes_nil rfl _⟩

/-- Counted in bytes or in characters, an escape looks ahead as far. -/
theorem exists_takes (letter : Char) (cs : List Char) :
    ∃ tail, (read letter cs).Takes tail cs := by
  by_cases hx : letter = 'x'
  · subst hx
    exact exists_takes_digits 'x' 2 cs
  by_cases hu : letter = 'u'
  · subst hu
    by_cases hbrace : cs.head? = some '\x7b'
    · obtain ⟨rest, rfl⟩ := List.head?_eq_some_iff.1 hbrace
      exact exists_takes_braces rest
    · rw [read_u hbrace]
      exact exists_takes_digits 'u' 4 cs
  by_cases hr : letter = '\r'
  · subst hr
    by_cases hfeed : cs.head? = some '\n'
    · obtain ⟨rest, rfl⟩ := List.head?_eq_some_iff.1 hfeed
      exact ⟨['\n'], ⟨rest, rfl⟩, rfl, rfl⟩
    · refine ⟨[], takes_nil ?_ cs⟩
      show (if cs.head? == some '\n' then 1 else 0) = 0
      rw [if_neg (by simpa using hfeed)]
  · exact ⟨[], takes_nil (read_length_eq_zero hx hu hr cs) cs⟩

end Escape

theorem StringBody.behind_behind (m n : Nat) (v w : List Char) (b : StringBody) :
    behind m v (behind n w b) = behind (m + n) (v ++ w) b := by
  simp [behind, Extent.behind, Nat.add_assoc]

theorem stringBody_mark (mark : Char) (rest : List Char) :
    stringBody mark (mark :: rest) = { length := 1, closed := true, value := [] } := by
  rw [stringBody.eq_def]
  simp

theorem stringBody_nil (mark : Char) : stringBody mark [] = .unclosed := by
  rw [stringBody.eq_def]

theorem stringBody_lineBreak_of_ne {mark c : Char} (hne : c ≠ mark)
    (hc : isLineBreak c = true) (rest : List Char) : stringBody mark (c :: rest) = .unclosed := by
  rw [stringBody.eq_def]
  simp [hne, hc]

theorem stringBody_lineBreak {mark c : Char} (hmark : isLineBreak mark = false)
    (hc : isLineBreak c = true) (rest : List Char) : stringBody mark (c :: rest) = .unclosed := by
  refine stringBody_lineBreak_of_ne ?_ hc rest
  rintro rfl
  rw [hc] at hmark
  cases hmark

theorem stringBody_backslash {mark : Char} (hmark : mark ≠ '\\') :
    stringBody mark ['\\'] = .behind 1 [] .unclosed := by
  have hne : ('\\' == mark) = false := by simpa using hmark.symm
  rw [stringBody.eq_def]
  simp only [hne]
  rfl

theorem stringBody_escape {mark : Char} (hmark : mark ≠ '\\') (letter : Char)
    (after : List Char) :
    stringBody mark ('\\' :: letter :: after) =
      .behind (2 + (Escape.read letter after).length) (Escape.read letter after).value
        (stringBody mark (after.drop (Escape.read letter after).length)) := by
  have hne : ('\\' == mark) = false := by simpa using hmark.symm
  rw [stringBody.eq_def]
  simp only [hne]
  rfl

theorem stringBody_cons {mark c : Char} (hmark : c ≠ mark) (hc : isLineBreak c = false)
    (hback : c ≠ '\\') (rest : List Char) :
    stringBody mark (c :: rest) = .behind 1 [c] (stringBody mark rest) := by
  rw [stringBody.eq_def]
  simp [hmark, hc, hback]

/-! ## On the way -/

namespace StringScan

variable {mark : Char} {body behind : List Char} {s : StringScan}

/-- The scan stands behind the characters `behind` of the body, and its value is what decoding
from the first character on has made of them. -/
structure Follows (mark : Char) (body behind : List Char) (s : StringScan) : Prop where
  text : body = behind ++ s.rest
  offset : s.offset = byteLength behind
  opened : s.closed = false
  decoded : stringBody mark body =
    .behind behind.length (s.value body).toList (stringBody mark s.rest)

theorem passed_eq {rest : List Char} (htext : body = behind ++ rest)
    (hoffset : s.offset = byteLength behind) : s.passed body = behind := by
  rw [passed, hoffset, htext, Lines.takeBytes_append]

theorem Follows.passed_eq (h : s.Follows mark body behind) : s.passed body = behind :=
  StringScan.passed_eq h.text h.offset

theorem follows_start (mark : Char) (body : List Char) :
    ({ rest := body } : StringScan).Follows mark body [] where
  text := rfl
  offset := rfl
  opened := rfl
  decoded := by
    have hpassed : ({ rest := body } : StringScan).passed body = [] :=
      passed_eq (show body = [] ++ body from rfl) rfl
    have hvalue : (({ rest := body } : StringScan).value body).toList = [] := by
      simp [value, hpassed]
    rw [hvalue]
    simp [StringBody.behind, Extent.behind]

theorem Follows.pass {c : Char} {rest : List Char} (h : s.Follows mark body behind)
    (hrest : s.rest = c :: rest) (hmark : c ≠ mark) (hbreak : isLineBreak c = false)
    (hback : c ≠ '\\') : (s.pass c rest).Follows mark body (behind ++ [c]) := by
  have htext : body = (behind ++ [c]) ++ rest := by
    rw [List.append_assoc, List.singleton_append, ← hrest]
    exact h.text
  have hoffset : (s.pass c rest).offset = byteLength (behind ++ [c]) := by
    rw [byteLength_append, ← h.offset]
    rfl
  have hvalue : ((s.pass c rest).value body).toList = (s.value body).toList ++ [c] := by
    cases hw : s.written with
    | none =>
      -- still the stretch of the text, which has become longer
      have hnone : (s.pass c rest).written = none := by rw [StringScan.pass, hw, Option.map_none]
      rw [value, value, hw, hnone, Option.getD_none, Option.getD_none, String.toList_ofList,
        String.toList_ofList, h.passed_eq]
      exact StringScan.passed_eq htext hoffset
    | some w => simp [value, StringScan.pass, hw]
  refine ⟨htext, hoffset, h.opened, ?_⟩
  rw [h.decoded, hrest, stringBody_cons hmark hbreak hback, StringBody.behind_behind, hvalue,
    List.length_append]
  rfl

theorem Follows.escape {letter : Char} {after : List Char} (h : s.Follows mark body behind)
    (hrest : s.rest = '\\' :: letter :: after) (hmark : mark ≠ '\\') :
    ∃ behind', ((s.backslash body (letter :: after)).escape letter after).Follows mark body
      behind' := by
  obtain ⟨tail, ⟨later, htail⟩, hlength, hbytes⟩ := Escape.exists_takes letter after
  generalize he : Escape.read letter after = e at hlength hbytes
  have hafter : Lines.dropBytes after e.length = later := by
    rw [← hbytes, ← htail, Lines.dropBytes_append]
  have hdrop : after.drop e.length = later := by
    rw [← hlength, ← htail, List.drop_left]
  refine ⟨behind ++ '\\' :: letter :: tail, ?_, ?_, h.opened, ?_⟩
  · simp only [StringScan.escape, he, hafter]
    rw [h.text, hrest, ← htail]
    simp
  · simp only [StringScan.escape, backslash, he, byteLength_append, byteLength, hbytes, h.offset]
    show byteLength behind + 1 + letter.utf8Size + e.length =
      byteLength behind + (1 + (letter.utf8Size + e.length))
    omega
  · have hvalue : (((s.backslash body (letter :: after)).escape letter after).value body).toList =
        (s.value body).toList ++ e.value := by
      simp [StringScan.escape, backslash, value, he]
    have hcount : (behind ++ '\\' :: letter :: tail).length = behind.length + (2 + e.length) := by
      simp only [List.length_append, List.length_cons, hlength]
      omega
    rw [h.decoded, hrest, stringBody_escape hmark, StringBody.behind_behind, he, hdrop, hvalue,
      hcount]
    simp only [StringScan.escape, he, hafter]

/-- A backslash at the end of the text has nothing to escape. -/
theorem Follows.backslash (h : s.Follows mark body behind) (hrest : s.rest = ['\\'])
    (hmark : mark ≠ '\\') : (s.backslash body []).Follows mark body (behind ++ ['\\']) where
  text := by
    rw [h.text, hrest]
    exact (List.append_nil _).symm
  offset := by
    rw [byteLength_append, ← h.offset]
    rfl
  opened := h.opened
  decoded := by
    have hvalue : (s.backslash body []).value body = s.value body := rfl
    rw [h.decoded, hrest, stringBody_backslash hmark, StringBody.behind_behind, hvalue,
      List.append_nil, List.length_append]
    simp only [StringScan.backslash, stringBody_nil]
    rfl

/-- Where a scan ends, it has the value, the length and the mark that the whole body has. -/
structure Agrees (body : List Char) (s : StringScan) (b : StringBody) : Prop where
  closed : s.closed = b.closed
  length : (s.passed body).length + s.closed.toNat = b.length
  value : s.value body = String.ofList b.value

theorem Follows.agrees_unclosed (h : s.Follows mark body behind)
    (hend : stringBody mark s.rest = .unclosed) : s.Agrees body (stringBody mark body) := by
  rw [h.decoded, hend]
  refine ⟨h.opened, ?_, ?_⟩
  · rw [h.passed_eq, h.opened]
    rfl
  · simp only [StringBody.behind, StringBody.unclosed, List.append_nil, String.ofList_toList]

theorem Follows.agrees_closed {rest : List Char} (h : s.Follows mark body behind)
    (hrest : s.rest = mark :: rest) :
    ({ s with closed := true } : StringScan).Agrees body (stringBody mark body) := by
  rw [h.decoded, hrest, stringBody_mark]
  refine ⟨rfl, ?_, ?_⟩
  · show (s.passed body).length + 1 = behind.length + 1
    rw [h.passed_eq]
  · simp only [StringBody.behind, List.append_nil, String.ofList_toList]
    rfl

/-- A scan from any place on keeps pace with decoding from the first character on. -/
theorem Follows.run (h : s.Follows mark body behind) :
    (StringScan.run mark body s).Agrees body (stringBody mark body) := by
  fun_induction StringScan.run mark body s generalizing behind with
  | case1 s hrest =>
    refine h.agrees_unclosed ?_
    rw [hrest, stringBody_nil]
  | case2 s c rest hrest hmark =>
    rw [beq_iff_eq.1 hmark] at hrest
    exact h.agrees_closed hrest
  | case3 s c rest hrest hmark hbreak =>
    refine h.agrees_unclosed ?_
    rw [hrest, stringBody_lineBreak_of_ne (by simpa using hmark) hbreak]
  | case4 s c hmark hbreak hback hrest _ =>
    rw [beq_iff_eq.1 hback] at hrest hmark
    have hquote : mark ≠ '\\' := fun h => hmark (beq_iff_eq.2 h.symm)
    exact (h.backslash hrest hquote).agrees_unclosed (stringBody_nil mark)
  | case5 s c hmark hbreak hback letter after hrest _ ih =>
    rw [beq_iff_eq.1 hback] at hrest hmark
    have hquote : mark ≠ '\\' := fun h => hmark (beq_iff_eq.2 h.symm)
    obtain ⟨behind', h'⟩ := h.escape hrest hquote
    exact ih h'
  | case6 s c rest hrest hmark hbreak hback ih =>
    exact ih (h.pass hrest (by simpa using hmark) (by simpa using hbreak) (by simpa using hback))

end StringScan

end Literal

namespace Cut

theorem read_mark [IdentifierTable] {mark : Char} (h : (mark == '\x27' || mark == '\x22') = true)
    (allowed : Bool) (body : List Char) : read allowed (mark :: body) = string mark body := by
  rw [Bool.or_eq_true, beq_iff_eq, beq_iff_eq] at h
  rcases h with rfl | rfl <;> rfl

/-- A string is cut off as decoding from the first character on has it. -/
theorem string_eq (mark : Char) (body : List Char) :
    string mark body =
      let b := Literal.stringBody mark body
      if b.closed then .token .string (1 + b.length) (String.ofList b.value)
      else .fault .unterminatedString (1 + b.length) (1 + b.length) := by
  have h := (Literal.StringScan.follows_start mark body).run
  simp only [string, h.closed, h.value, ← h.length]
  cases hclosed : (Literal.stringBody mark body).closed <;> simp [Nat.add_assoc]

end Cut

end ScriptOutline
