/-
The table of lines is exact, and asking it never fails.

`Lines` is taken from characters and answers by counting.  A program makes the table in a loop over
the bytes of the text and asks it by halving, where a number is decremented, a table is indexed and
two offsets are subtracted.  `Lines.ofBytes`, `Lines.lineOf?` and `Lines.positionOf?` are written
that way, each with its ways to fail.  They never fail and agree with `Lines`, and what they answer is
what the terminators of the text say.
-/
import ScriptOutline.Proofs.Targets
import Mathlib.Data.Set.Card

namespace ScriptOutline

open Text

/-- A line terminator, in front of the characters that follow it. -/
inductive Terminator : List Char → List Char → Prop where
  | pair {behind : List Char} : Terminator ['\r', '\n'] behind
  | lineFeed {behind : List Char} : Terminator ['\n'] behind
  | carriageReturn {behind : List Char} (h : behind.head? ≠ some '\n') : Terminator ['\r'] behind
  | lineSeparator {behind : List Char} : Terminator ['\u2028'] behind
  | paragraphSeparator {behind : List Char} : Terminator ['\u2029'] behind

/-- A line terminator of the text ends at the offset.  The line feed of a pair ends where the pair
does, so that the two count once. -/
def EndsLineAt (text : List Char) (stop : Nat) : Prop :=
  ∃ before terminator behind, Terminator terminator behind ∧
    text = before ++ (terminator ++ behind) ∧ stop = byteLength (before ++ terminator)

theorem endsLine_iff_terminator {c : Char} {behind : List Char} :
    endsLine c behind.head? = true ↔ Terminator [c] behind := by
  constructor
  · intro h
    simp only [endsLine, isLineBreak, Bool.and_eq_true, Bool.or_eq_true, beq_iff_eq,
      Bool.not_eq_true', Bool.and_eq_false_iff, beq_eq_false_iff_ne] at h
    obtain ⟨((rfl | rfl) | rfl) | rfl, h⟩ := h
    · exact .lineFeed
    · refine .carriageReturn ?_
      simpa using h
    · exact .lineSeparator
    · exact .paragraphSeparator
  · intro h
    cases h with
    | carriageReturn h => simpa [endsLine, isLineBreak] using h
    | _ => rfl

theorem endsLineAt_iff {text : List Char} {stop : Nat} :
    EndsLineAt text stop ↔ ∃ before c behind, endsLine c behind.head? = true ∧
      text = before ++ c :: behind ∧ stop = byteLength (before ++ [c]) := by
  constructor
  · rintro ⟨before, terminator, behind, hterminator, rfl, rfl⟩
    cases hterminator with
    | pair =>
      refine ⟨before ++ ['\r'], '\n', behind, rfl, ?_, ?_⟩
      · rw [List.append_assoc]
        rfl
      · rw [List.append_assoc]
        rfl
    | lineFeed => exact ⟨before, '\n', behind, rfl, rfl, rfl⟩
    | carriageReturn h =>
      exact ⟨before, '\r', behind, endsLine_iff_terminator.mpr (.carriageReturn h), rfl, rfl⟩
    | lineSeparator => exact ⟨before, '\u2028', behind, rfl, rfl, rfl⟩
    | paragraphSeparator => exact ⟨before, '\u2029', behind, rfl, rfl, rfl⟩
  · rintro ⟨before, c, behind, hends, rfl, rfl⟩
    exact ⟨before, [c], behind, endsLine_iff_terminator.mp hends, rfl, rfl⟩

namespace Lines

theorem mem_startsAfter {offset start : Nat} {cs : List Char} :
    start ∈ startsAfter offset cs ↔ ∃ stop, EndsLineAt cs stop ∧ start = offset + stop := by
  simp only [endsLineAt_iff]
  induction cs generalizing offset with
  | nil => simp [startsAfter]
  | cons d ds ih =>
    have hsplit : start ∈ startsAfter offset (d :: ds) ↔
        (endsLine d ds.head? = true ∧ start = offset + d.utf8Size) ∨
          start ∈ startsAfter (offset + d.utf8Size) ds := by
      simp only [startsAfter]
      by_cases h : endsLine d ds.head? = true <;> simp [h]
    rw [hsplit, ih]
    constructor
    · rintro (⟨hends, rfl⟩ | ⟨stop, ⟨before, c, behind, hends, rfl, rfl⟩, rfl⟩)
      · exact ⟨_, ⟨[], d, ds, hends, rfl, rfl⟩, by simp [byteLength]⟩
      · refine ⟨_, ⟨d :: before, c, behind, hends, rfl, rfl⟩, ?_⟩
        rw [List.cons_append, byteLength]
        omega
    · rintro ⟨stop, ⟨before, c, behind, hends, htext, rfl⟩, rfl⟩
      cases before with
      | nil =>
        obtain ⟨rfl, rfl⟩ := List.cons.inj htext
        exact .inl ⟨hends, by simp [byteLength]⟩
      | cons d' before =>
        obtain ⟨rfl, rfl⟩ := List.cons.inj htext
        refine .inr ⟨_, ⟨before, c, behind, hends, rfl, rfl⟩, ?_⟩
        rw [List.cons_append, byteLength]
        omega

theorem pairwise_startsAfter (offset : Nat) (cs : List Char) :
    (startsAfter offset cs).Pairwise (· < ·) := by
  induction cs generalizing offset with
  | nil => exact List.Pairwise.nil
  | cons c cs ih =>
    simp only [startsAfter]
    split
    · exact List.pairwise_cons.mpr ⟨fun start h => lt_of_mem_startsAfter h, ih _⟩
    · exact ih _

theorem pairwise_starts (text : String) : (ofText text).starts.Pairwise (· < ·) :=
  List.pairwise_cons.mpr ⟨fun _ h => lt_of_mem_startsAfter h, pairwise_startsAfter _ _⟩

theorem mem_starts {text : String} {start : Nat} :
    start ∈ (ofText text).starts ↔ start = 0 ∨ EndsLineAt text.toList start := by
  simp [ofText, mem_startsAfter]

theorem le_of_endsLineAt {text : List Char} {stop : Nat} (h : EndsLineAt text stop) :
    stop ≤ byteLength text := by
  obtain ⟨before, terminator, behind, -, rfl, rfl⟩ := h
  simp only [byteLength_append]
  omega

theorem le_of_mem_starts {text : String} {start : Nat} (h : start ∈ (ofText text).starts) :
    start ≤ byteLength text.toList := by
  rcases mem_starts.mp h with rfl | h
  · exact Nat.zero_le _
  · exact le_of_endsLineAt h

/-! ## The loop over the bytes -/

/-- The offsets behind the terminators among bytes of which the first is at `i`. -/
def startsAmong (i : Nat) : List UInt8 → List Nat
  | [] => []
  | b :: bs =>
    if b = 0x0A then (i + 1) :: startsAmong (i + 1) bs
    else if b = 0x0D then
      if bs[0]? = some 0x0A then (i + 2) :: startsAmong (i + 2) (bs.drop 1)
      else (i + 1) :: startsAmong (i + 1) bs
    else if b = 0xE2 ∧ bs[0]? = some 0x80 ∧ (bs[1]? = some 0xA8 ∨ bs[1]? = some 0xA9) then
      (i + 3) :: startsAmong (i + 3) (bs.drop 2)
    else startsAmong (i + 1) bs
termination_by bytes => bytes.length
decreasing_by
  all_goals simp only [List.length_cons, List.length_drop]
  all_goals omega

def ofBytes (bytes : List UInt8) : Lines := { starts := 0 :: startsAmong 0 bytes }

section Bytes

variable {b : UInt8} {bs : List UInt8}

theorem startsAmong_skip (hfeed : b ≠ 0x0A) (hreturn : b ≠ 0x0D)
    (hseparator : ¬ (b = 0xE2 ∧ bs[0]? = some 0x80 ∧ (bs[1]? = some 0xA8 ∨ bs[1]? = some 0xA9)))
    (i : Nat) : startsAmong i (b :: bs) = startsAmong (i + 1) bs := by
  rw [startsAmong, if_neg hfeed, if_neg hreturn, if_neg hseparator]

theorem ofNat_eq_iff {m n : Nat} (hm : m < 256) (hn : n < 256) :
    UInt8.ofNat m = UInt8.ofNat n ↔ m = n := by
  rw [← UInt8.toNat_inj, UInt8.toNat_ofNat_of_lt' hm, UInt8.toNat_ofNat_of_lt' hn]

theorem startsAmong_skip_ofNat {n : Nat} (hn : n < 256) (h : n ≠ 0x0A ∧ n ≠ 0x0D ∧ n ≠ 0xE2)
    (i : Nat) : startsAmong i (.ofNat n :: bs) = startsAmong (i + 1) bs := by
  apply startsAmong_skip
  · exact fun heq => h.1 ((ofNat_eq_iff hn (by decide)).mp heq)
  · exact fun heq => h.2.1 ((ofNat_eq_iff hn (by decide)).mp heq)
  · exact fun heq => h.2.2 ((ofNat_eq_iff hn (by decide)).mp heq.1)

end Bytes

theorem toNat_ne_of_not_isLineBreak {c : Char} (h : isLineBreak c = false) :
    c.val.toNat ≠ 0x0A ∧ c.val.toNat ≠ 0x0D ∧ c.val.toNat ≠ 0x2028 ∧ c.val.toNat ≠ 0x2029 := by
  simp only [isLineBreak, Bool.or_eq_false_iff, beq_eq_false_iff_ne] at h
  obtain ⟨⟨⟨hfeed, hreturn⟩, hline⟩, hparagraph⟩ := h
  have toNat_ne {d : Char} (hd : c ≠ d) : c.val.toNat ≠ d.val.toNat := fun heq =>
    hd (Char.ext (UInt32.toNat_inj.mp heq))
  exact ⟨toNat_ne hfeed, toNat_ne hreturn, toNat_ne hline, toNat_ne hparagraph⟩

/-- No byte of a character that breaks no line looks like a terminator. -/
theorem startsAmong_encoded {c : Char} (h : isLineBreak c = false) (i : Nat) (bs : List UInt8) :
    startsAmong i (String.utf8EncodeChar c ++ bs) = startsAmong (i + c.utf8Size) bs := by
  obtain ⟨hfeed, hreturn, hline, hparagraph⟩ := toNat_ne_of_not_isLineBreak h
  rw [← String.length_utf8EncodeChar c, String.utf8EncodeChar]
  generalize c.val.toNat = v at hfeed hreturn hline hparagraph
  by_cases hone : v ≤ 127
  · simp only [if_pos hone]
    exact startsAmong_skip_ofNat (by omega) (by omega) i
  by_cases htwo : v ≤ 2047
  · simp only [if_neg hone, if_pos htwo]
    rw [List.cons_append, startsAmong_skip_ofNat (by omega) (by omega)]
    exact startsAmong_skip_ofNat (by omega) (by omega) _
  by_cases hthree : v ≤ 65535
  · simp only [if_neg hone, if_neg htwo, if_pos hthree]
    have hlead {n : Nat} (hn : n < 256) (h : v / 4096 % 16 + 224 ≠ n) :
        UInt8.ofNat (v / 4096 % 16 + 224) ≠ .ofNat n := fun heq =>
      h ((ofNat_eq_iff (by omega) hn).mp heq)
    have hseparator : ¬ (UInt8.ofNat (v / 4096 % 16 + 224) = .ofNat 0xE2 ∧
        some (UInt8.ofNat (v / 64 % 64 + 128)) = some (.ofNat 0x80) ∧
        (some (UInt8.ofNat (v % 64 + 128)) = some (.ofNat 0xA8) ∨
          some (UInt8.ofNat (v % 64 + 128)) = some (.ofNat 0xA9))) := by
      rw [Option.some.injEq, Option.some.injEq, Option.some.injEq,
        ofNat_eq_iff (by omega) (by omega), ofNat_eq_iff (by omega) (by omega),
        ofNat_eq_iff (by omega) (by omega), ofNat_eq_iff (by omega) (by omega)]
      omega
    rw [List.cons_append, startsAmong_skip (hlead (n := 0x0A) (by decide) (by omega))
      (hlead (n := 0x0D) (by decide) (by omega)) hseparator, List.cons_append,
      startsAmong_skip_ofNat (by omega) (by omega)]
    exact startsAmong_skip_ofNat (by omega) (by omega) _
  · simp only [if_neg hone, if_neg htwo, if_neg hthree]
    rw [List.cons_append, startsAmong_skip_ofNat (by omega) (by omega), List.cons_append,
      startsAmong_skip_ofNat (by omega) (by omega), List.cons_append,
      startsAmong_skip_ofNat (by omega) (by omega)]
    exact startsAmong_skip_ofNat (by omega) (by omega) _

theorem encoded_eq_feed_iff {c : Char} {bs : List UInt8} :
    (String.utf8EncodeChar c ++ bs)[0]? = some 0x0A ↔ c = '\n' := by
  constructor
  · intro h
    have hvalue : c.val.toNat = 0x0A := by
      rw [String.utf8EncodeChar] at h
      generalize c.val.toNat = v at h
      have first {n : Nat} (hn : n < 256) (heq : some (UInt8.ofNat n) = some (.ofNat 0x0A)) :
          n = 0x0A := (ofNat_eq_iff hn (by decide)).mp (Option.some.inj heq)
      by_cases hone : v ≤ 127
      · simp only [if_pos hone] at h
        exact first (by omega) h
      by_cases htwo : v ≤ 2047
      · simp only [if_neg hone, if_pos htwo] at h
        have := first (by omega) h
        omega
      by_cases hthree : v ≤ 65535
      · simp only [if_neg hone, if_neg htwo, if_pos hthree] at h
        have := first (by omega) h
        omega
      · simp only [if_neg hone, if_neg htwo, if_neg hthree] at h
        have := first (by omega) h
        omega
    exact Char.ext (UInt32.toNat_inj.mp hvalue)
  · rintro rfl
    rfl

theorem flatMap_eq_feed_iff {cs : List Char} :
    (cs.flatMap String.utf8EncodeChar)[0]? = some 0x0A ↔ cs.head? = some '\n' := by
  cases cs with
  | nil => simp
  | cons c cs => rw [List.flatMap_cons, encoded_eq_feed_iff, List.head?_cons, Option.some.injEq]

theorem startsAmong_return (i : Nat) (bs : List UInt8) :
    startsAmong i (0x0D :: bs) =
      if bs[0]? = some 0x0A then startsAmong (i + 1) bs else (i + 1) :: startsAmong (i + 1) bs := by
  rw [startsAmong, if_neg (by decide), if_pos rfl]
  by_cases h : bs[0]? = some 0x0A
  · rw [if_pos h, if_pos h]
    match bs, h with
    | b :: bs, h =>
      obtain rfl : b = 0x0A := Option.some.inj h
      rw [startsAmong, if_pos rfl]
      rfl
  · rw [if_neg h, if_neg h]

theorem startsAmong_separator (i : Nat) {b : UInt8} (h : b = 0xA8 ∨ b = 0xA9) (bs : List UInt8) :
    startsAmong i (0xE2 :: 0x80 :: b :: bs) = (i + 3) :: startsAmong (i + 3) bs := by
  rw [startsAmong, if_neg (by decide), if_neg (by decide), if_pos]
  · rfl
  · exact ⟨rfl, rfl, h.imp (congrArg some) (congrArg some)⟩

theorem startsAmong_flatMap (i : Nat) (cs : List Char) :
    startsAmong i (cs.flatMap String.utf8EncodeChar) = startsAfter i cs := by
  induction cs generalizing i with
  | nil => rw [List.flatMap_nil, startsAmong, startsAfter]
  | cons c cs ih =>
    rw [List.flatMap_cons]
    cases h : isLineBreak c with
    | false =>
      rw [startsAmong_encoded h, ih, startsAfter]
      simp [endsLine, h]
    | true =>
      simp only [isLineBreak, Bool.or_eq_true, beq_iff_eq] at h
      obtain ((rfl | rfl) | rfl) | rfl := h
      · show startsAmong i (0x0A :: cs.flatMap String.utf8EncodeChar) = _
        rw [startsAmong, if_pos rfl, ih]
        rfl
      · show startsAmong i (0x0D :: cs.flatMap String.utf8EncodeChar) = _
        rw [startsAmong_return, ih]
        by_cases hfeed : cs.head? = some '\n'
        · rw [if_pos (flatMap_eq_feed_iff.mpr hfeed), startsAfter, hfeed]
          rfl
        · have hends : endsLine '\r' cs.head? = true :=
            endsLine_iff_terminator.mpr (.carriageReturn hfeed)
          rw [if_neg (mt flatMap_eq_feed_iff.mp hfeed), startsAfter, hends]
          rfl
      · show startsAmong i (0xE2 :: 0x80 :: 0xA8 :: cs.flatMap String.utf8EncodeChar) = _
        rw [startsAmong_separator i (.inl rfl), ih]
        rfl
      · show startsAmong i (0xE2 :: 0x80 :: 0xA9 :: cs.flatMap String.utf8EncodeChar) = _
        rw [startsAmong_separator i (.inr rfl), ih]
        rfl

theorem toByteArray_toList (text : String) :
    text.toByteArray.data.toList = text.toList.flatMap String.utf8EncodeChar := by
  conv_lhs => rw [← String.ofList_toList (s := text)]
  rw [String.toByteArray_ofList, List.utf8Encode, List.data_toByteArray]

theorem ofBytes_eq (text : String) : ofBytes text.toByteArray.data.toList = ofText text := by
  rw [ofBytes, ofText, toByteArray_toList, startsAmong_flatMap]

/-! ## Halving -/

/-- The last of `size` entries from `base` on that is not beyond `offset`, or `base` if all are. -/
def halve (starts : List Nat) (offset base size : Nat) : Nat :=
  if size ≤ 1 then base
  else
    let middle := base + size / 2
    halve starts offset (if offset < starts.getD middle 0 then base else middle) (size - size / 2)
termination_by size
decreasing_by omega

/-- The index of an entry, or else the index where it would stand. -/
def search (starts : List Nat) (offset : Nat) : Except Nat Nat :=
  if starts = [] then .error 0
  else
    let base := halve starts offset 0 starts.length
    if starts.getD base 0 = offset then .ok base
    else if starts.getD base 0 < offset then .error (base + 1)
    else .error base

/-- `lineOf` by halving.  An offset in front of the first entry has no line. -/
def lineOf? (l : Lines) (offset : Nat) : Option Nat :=
  match search l.starts offset with
  | .ok line => some line
  | .error 0 => none
  | .error (line + 1) => some line

/-- `positionOf` by halving.  There is none if the line has no start, or if its start is behind the
offset or the end of the text. -/
def positionOf? (l : Lines) (text : String) (offset : Nat) : Option Position := do
  let line ← l.lineOf? offset
  let start ← l.starts[line]?
  let stop := min offset (byteLength text.toList)
  if stop < start then none
  else
    let column := charactersIn (dropBytes text.toList start) (stop - start)
    some { line, column := column.getD (stop - start) }

section Halving

variable {starts : List Nat} {offset : Nat}

theorem getD_eq {i : Nat} (h : i < starts.length) : starts.getD i 0 = starts[i] := by
  rw [List.getD_eq_getElem?_getD, List.getElem?_eq_getElem h, Option.getD_some]

theorem getD_lt_of_pairwise (h : starts.Pairwise (· < ·)) {i j : Nat} (hij : i < j)
    (hj : j < starts.length) : starts.getD i 0 < starts.getD j 0 := by
  rw [getD_eq hj, getD_eq (Nat.lt_trans hij hj)]
  exact List.pairwise_iff_getElem.mp h i j _ hj hij

/-- Halving keeps an entry up to the offset at `base` and the entries behind the window beyond it,
so it ends at the last entry up to the offset. -/
theorem halve_spec (h : starts.Pairwise (· < ·)) {base size : Nat} (hsize : 0 < size)
    (hwindow : base + size ≤ starts.length) (hbase : starts.getD base 0 ≤ offset)
    (hbeyond : ∀ i, base + size ≤ i → i < starts.length → offset < starts.getD i 0) :
    halve starts offset base size < starts.length ∧
      starts.getD (halve starts offset base size) 0 ≤ offset ∧
      ∀ i, halve starts offset base size < i → i < starts.length → offset < starts.getD i 0 := by
  induction size using Nat.strongRecOn generalizing base with
  | ind size ih =>
    rw [halve]
    by_cases hone : size ≤ 1
    · rw [if_pos hone]
      exact ⟨by omega, hbase, fun i hi => hbeyond i (by omega)⟩
    · rw [if_neg hone]
      by_cases hmiddle : offset < starts.getD (base + size / 2) 0
      · simp only [if_pos hmiddle]
        refine ih _ (by omega) (by omega) (by omega) hbase fun i hi hlt => ?_
        by_cases heq : base + size / 2 = i
        · exact heq ▸ hmiddle
        · have := getD_lt_of_pairwise h (i := base + size / 2) (j := i) (by omega) hlt
          omega
      · simp only [if_neg hmiddle]
        exact ih _ (by omega) (by omega) (by omega) (by omega) fun i hi => hbeyond i (by omega)

theorem countP_eq_of_last {line : Nat} (h : starts.Pairwise (· < ·)) (hline : line < starts.length)
    (hle : starts.getD line 0 ≤ offset)
    (hbeyond : ∀ i, line < i → i < starts.length → offset < starts.getD i 0) :
    starts.countP (· ≤ offset) = line + 1 := by
  have hfront : (starts.take (line + 1)).countP (· ≤ offset) = (starts.take (line + 1)).length := by
    rw [List.countP_eq_length]
    intro start hmem
    obtain ⟨i, hi, rfl⟩ := List.mem_take_iff_getElem.mp hmem
    have hle' : starts.getD i 0 ≤ starts.getD line 0 := by
      by_cases heq : i = line
      · exact heq ▸ Nat.le_refl _
      · exact Nat.le_of_lt (getD_lt_of_pairwise h (by omega) hline)
    rw [getD_eq (by omega)] at hle'
    exact decide_eq_true (Nat.le_trans hle' hle)
  have hback : (starts.drop (line + 1)).countP (· ≤ offset) = 0 := by
    rw [List.countP_eq_zero]
    intro start hmem
    obtain ⟨i, hi, rfl⟩ := List.mem_drop_iff_getElem.mp hmem
    have hlt := hbeyond (line + 1 + i) (by omega) (by omega)
    rw [getD_eq (by omega)] at hlt
    rw [decide_eq_true_eq]
    omega
  rw [← List.take_append_drop (line + 1) starts, List.countP_append, hfront, hback, Nat.add_zero,
    List.length_take]
  omega

end Halving

section Answers

variable (text : String) (offset : Nat)

/-- Halving the table of a text finds the line that counting gives, and the line has a start. -/
theorem halve_starts :
    halve (ofText text).starts offset 0 (ofText text).starts.length = (ofText text).lineOf offset ∧
      (ofText text).lineOf offset < (ofText text).starts.length ∧
      (ofText text).starts.getD ((ofText text).lineOf offset) 0 ≤ offset := by
  have hpairwise := pairwise_starts text
  have hbehind (i : Nat) (hi : 0 + (ofText text).starts.length ≤ i)
      (hlt : i < (ofText text).starts.length) : offset < (ofText text).starts.getD i 0 := by
    omega
  have hpos : 0 < (ofText text).starts.length := Nat.succ_pos _
  obtain ⟨hlt, hle, hbeyond⟩ :=
    halve_spec hpairwise hpos (Nat.le_of_eq (Nat.zero_add _)) (Nat.zero_le offset) hbehind
  have heq := countP_eq_of_last hpairwise hlt hle hbeyond
  have hline : (ofText text).lineOf offset =
      halve (ofText text).starts offset 0 (ofText text).starts.length := by
    rw [lineOf, heq, Nat.add_sub_cancel]
  rw [hline]
  exact ⟨rfl, hlt, hle⟩

theorem lineOf?_eq : (ofText text).lineOf? offset = some ((ofText text).lineOf offset) := by
  obtain ⟨hhalve, -, hle⟩ := halve_starts text offset
  have hne : (ofText text).starts ≠ [] := List.cons_ne_nil _ _
  rw [lineOf?, search, if_neg hne]
  simp only [hhalve]
  by_cases heq : (ofText text).starts.getD ((ofText text).lineOf offset) 0 = offset
  · rw [if_pos heq]
  · rw [if_neg heq, if_pos (by omega)]

theorem positionOf?_eq :
    (ofText text).positionOf? text offset = some ((ofText text).positionOf text offset) := by
  obtain ⟨-, hlt, hle⟩ := halve_starts text offset
  have hstart : (ofText text).starts[(ofText text).lineOf offset]? =
      some ((ofText text).startOf ((ofText text).lineOf offset)) := by
    rw [startOf, getD_eq hlt, List.getElem?_eq_getElem hlt]
  have hend : (ofText text).startOf ((ofText text).lineOf offset) ≤ byteLength text.toList :=
    le_of_mem_starts (List.mem_of_getElem? hstart)
  have hordered : ¬ min offset (byteLength text.toList) <
      (ofText text).startOf ((ofText text).lineOf offset) := by
    rw [startOf] at hend ⊢
    omega
  rw [positionOf?, lineOf?_eq, Option.bind_eq_bind, Option.bind_some, hstart, Option.bind_some]
  simp only [if_neg hordered, positionOf]

theorem lineOf_eq_ncard :
    (ofText text).lineOf offset = {stop | stop ≤ offset ∧ EndsLineAt text.toList stop}.ncard := by
  have hset : {stop | stop ≤ offset ∧ EndsLineAt text.toList stop} =
      ((startsAfter 0 text.toList).filter (· ≤ offset)).toFinset := by
    ext stop
    simp [mem_startsAfter, and_comm]
  have hnodup : ((startsAfter 0 text.toList).filter (· ≤ offset)).Nodup :=
    ((pairwise_startsAfter 0 text.toList).imp Nat.ne_of_lt).filter _
  rw [hset, Set.ncard_coe_finset, List.toFinset_card_of_nodup hnodup, lineOf, ofText,
    List.countP_cons_of_pos (by simp), Nat.add_sub_cancel, List.countP_eq_length_filter]

variable {text}

/-- On a boundary the column counts the characters since the start of the line. -/
theorem column_positionOf {before behind : List Char} (h : text.toList = before ++ behind) :
    ∃ head line, before = head ++ line ∧
      (ofText text).startOf ((ofText text).lineOf (byteLength before)) = byteLength head ∧
      ((ofText text).positionOf text (byteLength before)).column = line.length := by
  obtain ⟨head, line, honLine⟩ := (Cursor.reached_ofText text).move before.length
  have hoffset : ((Cursor.ofText text).move before.length).offset = byteLength before := by
    rw [Cursor.offset_move_length (c := .ofText text) h]
    simp [Cursor.ofText]
  have hrest : ((Cursor.ofText text).move before.length).rest = behind :=
    Cursor.rest_move_length (c := .ofText text) h
  refine ⟨head, line, ?_, ?_, ?_⟩
  · have htext := honLine.text
    rw [hrest, h, ← List.append_assoc] at htext
    exact List.append_cancel_right htext
  · rw [← hoffset, honLine.lineOf_eq, honLine.startOf_eq]
  · rw [← hoffset, honLine.positionOf_eq, honLine.column]

end Answers

/-- What the lines of a text are, and what they answer for any offset, also behind the end of the
text or inside a character.  As no start lies behind the end of the text, a number of any width
that holds the length of the text holds all of them. -/
structure Exact (l : Lines) (text : String) : Prop where
  head : l.starts.head? = some 0
  increasing : l.starts.Pairwise (· < ·)
  mem_starts : ∀ start, start ∈ l.starts ↔ start = 0 ∨ EndsLineAt text.toList start
  inText : ∀ start ∈ l.starts, start ≤ byteLength text.toList
  /-- Neither question ever fails. -/
  lineOf?_eq : ∀ offset, l.lineOf? offset = some (l.lineOf offset)
  positionOf?_eq : ∀ offset, l.positionOf? text offset = some (l.positionOf text offset)
  lineOf_eq : ∀ offset,
    l.lineOf offset = {stop | stop ≤ offset ∧ EndsLineAt text.toList stop}.ncard
  line_positionOf : ∀ offset, (l.positionOf text offset).line = l.lineOf offset
  /-- Between two characters the column counts those since the start of the line, -/
  column_positionOf : ∀ before behind, text.toList = before ++ behind →
    ∃ head line, before = head ++ line ∧
      l.startOf (l.lineOf (byteLength before)) = byteLength head ∧
      (l.positionOf text (byteLength before)).column = line.length
  /-- and what is farther behind has a later position, -/
  before : ∀ i j, Boundary text i → Boundary text j → i < j →
    (l.positionOf text i).before (l.positionOf text j) = true
  /-- so that no two places share one. -/
  injective : ∀ i j, Boundary text i → Boundary text j →
    l.positionOf text i = l.positionOf text j → i = j

theorem ofText_exact (text : String) :
    ofBytes text.toByteArray.data.toList = ofText text ∧ (ofText text).Exact text := by
  refine ⟨ofBytes_eq text, rfl, pairwise_starts text, fun _ => mem_starts,
    fun _ => le_of_mem_starts, lineOf?_eq text, positionOf?_eq text, lineOf_eq_ncard text,
    fun _ => rfl, fun _ _ => column_positionOf, fun _ _ => positionOf_before, ?_⟩
  intro i j hi hj heq
  rcases Nat.lt_trichotomy i j with hlt | heq' | hlt
  · have hbefore := positionOf_before hi hj hlt
    rw [heq] at hbefore
    exact absurd hbefore (Position.before_asymm hbefore)
  · exact heq'
  · have hbefore := positionOf_before hj hi hlt
    rw [heq] at hbefore
    exact absurd hbefore (Position.before_asymm hbefore)

example : (ofText "a\r\nb\rc\u2028d").starts = [0, 3, 5, 9] := by decide

end Lines
end ScriptOutline
