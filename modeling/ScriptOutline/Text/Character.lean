/-
Character classes of the script language that need no table.
-/

namespace ScriptOutline
namespace Text

/-- Line feed, carriage return, line separator and paragraph separator. -/
def isLineBreak (c : Char) : Bool :=
  c == '\n' || c == '\r' || c == '\u2028' || c == '\u2029'

/-- White space that stays on its line. -/
def isBlank (c : Char) : Bool :=
  c == ' ' || c == '\t' || c == '\x0b' || c == '\x0c' || c == '\u00a0' || c == '\u1680' ||
  ('\u2000' ≤ c && c ≤ '\u200a') || c == '\u202f' || c == '\u205f' || c == '\u3000' ||
  c == '\ufeff'

/-- White space and comments between two tokens consist of these and of
comments. -/
def isSpace (c : Char) : Bool := isLineBreak c || isBlank c

def spaces : List Char :=
  ['\n', '\r', '\u2028', '\u2029', ' ', '\t', '\x0b', '\x0c', '\u00a0', '\u1680', '\u2000',
   '\u2001', '\u2002', '\u2003', '\u2004', '\u2005', '\u2006', '\u2007', '\u2008', '\u2009',
   '\u200a', '\u202f', '\u205f', '\u3000', '\ufeff']

theorem mem_spaces {c : Char} (h : isSpace c = true) : c ∈ spaces := by
  have hrange : '\u2000' ≤ c → c ≤ '\u200a' → c ∈ spaces := by
    intro hl hu
    have hl : 0x2000 ≤ c.toNat := hl
    have hu : c.toNat ≤ 0x200a := hu
    have hall : ∀ n < 11, Char.ofNat (0x2000 + n) ∈ spaces := by decide
    have hmem := hall (c.toNat - 0x2000) (by omega)
    rwa [Nat.add_sub_cancel' hl, Char.ofNat_toNat] at hmem
  simp only [isSpace, isLineBreak, isBlank, Bool.or_eq_true, beq_iff_eq, Bool.and_eq_true,
    decide_eq_true_eq, or_assoc] at h
  rcases h with rfl | rfl | rfl | rfl | rfl | rfl | rfl | rfl | rfl | rfl | ⟨hl, hu⟩ | rfl | rfl |
    rfl | rfl
  case inr.inr.inr.inr.inr.inr.inr.inr.inr.inr.inl => exact hrange hl hu
  all_goals decide

def lineBreaks : List Char := ['\n', '\r', '\u2028', '\u2029']

theorem mem_lineBreaks {c : Char} (h : isLineBreak c = true) : c ∈ lineBreaks := by
  simpa [lineBreaks, isLineBreak, or_assoc] using h

theorem ne_of_isLineBreak {c d : Char} (hc : isLineBreak c = true) (hd : isLineBreak d = false) :
    c ≠ d := by
  rintro rfl
  rw [hc] at hd
  cases hd

/-- What holds of the characters in a list is decided one by one: there is also a way to
decide what holds of all characters, and it goes through every one of them. -/
theorem forall_mem_of_all {p : Char → Prop} [DecidablePred p] {cs : List Char}
    (h : cs.all (decide <| p ·) = true) : ∀ c ∈ cs, p c := by
  simpa using h

def isDigit (c : Char) : Bool := '0' ≤ c && c ≤ '9'

def isHexDigit (c : Char) : Bool :=
  isDigit c || ('a' ≤ c && c ≤ 'f') || ('A' ≤ c && c ≤ 'F')

def isLetter (c : Char) : Bool := ('a' ≤ c && c ≤ 'z') || ('A' ≤ c && c ≤ 'Z')

/-- The value of a hexadecimal digit; a character that is none counts zero. -/
def hexValue (c : Char) : Nat :=
  if isDigit c then c.toNat - '0'.toNat
  else if 'a' ≤ c && c ≤ 'f' then c.toNat - 'a'.toNat + 10
  else if 'A' ≤ c && c ≤ 'F' then c.toNat - 'A'.toNat + 10
  else 0

def hexNumber (digits : List Char) : Nat :=
  digits.foldl (fun n c => 16 * n + hexValue c) 0

/-- The fewest lower-case hexadecimal digits that write `n`. -/
def hexDigits (n : Nat) : List Char := Nat.toDigits 16 n

/-- How many of the first characters of `cs` satisfy `p`. -/
def runLength (p : Char → Bool) (cs : List Char) : Nat := (cs.takeWhile p).length

theorem runLength_le (p : Char → Bool) (cs : List Char) : runLength p cs ≤ cs.length :=
  (List.takeWhile_sublist p).length_le

def inRanges (ranges : List (Nat × Nat)) (c : Char) : Bool :=
  ranges.any fun r => r.1 ≤ c.toNat && c.toNat ≤ r.2

end Text
end ScriptOutline
