/-
Places of a text in 32 bits.

Offsets, lines and columns are numbers without a bound.  Stored in 32 bits each they are still the
same, if the text is short enough to be addressed that way: no offset lies behind the end of the
text, and a line or a column has a byte of the text for each one before it.
-/
import ScriptOutline.Proofs.LineTable

namespace ScriptOutline

open Text

structure Position.Fits (p : Position) : Prop where
  line : p.line < UInt32.size
  column : p.column < UInt32.size

structure Location.Fits (l : Location) : Prop where
  start : l.span.start < UInt32.size
  stop : l.span.stop < UInt32.size
  position : l.position.Fits

theorem Text.length_le_byteLength (cs : List Char) : cs.length ≤ byteLength cs := by
  induction cs with
  | nil => exact Nat.le_refl 0
  | cons c cs ih =>
    have hpos := c.utf8Size_pos
    rw [List.length_cons, byteLength]
    omega

namespace Lines

theorem length_startsAfter_le (offset : Nat) (cs : List Char) :
    (startsAfter offset cs).length ≤ cs.length := by
  induction cs generalizing offset with
  | nil => exact Nat.le_refl 0
  | cons c cs ih =>
    simp only [startsAfter]
    split
    · exact Nat.succ_le_succ (ih _)
    · exact Nat.le_succ_of_le (ih _)

theorem charactersIn_le {cs : List Char} {bytes n : Nat} (h : charactersIn cs bytes = some n) :
    n ≤ bytes := by
  fun_induction charactersIn cs bytes generalizing n with
  | case1 => exact Nat.le_of_eq (Option.some.inj h).symm
  | case2 => cases h
  | case3 c cs bytes hle ih =>
    obtain ⟨m, hm, rfl⟩ := Option.map_eq_some_iff.1 h
    have hpos := c.utf8Size_pos
    have := ih hm
    omega
  | case4 => cases h

theorem lineOf_le (text : String) (offset : Nat) :
    (ofText text).lineOf offset ≤ byteLength text.toList := by
  have hcount : (ofText text).starts.countP (· ≤ offset) ≤ (ofText text).starts.length :=
    List.countP_le_length
  have hstarts := length_startsAfter_le 0 text.toList
  have hbytes := length_le_byteLength text.toList
  simp only [ofText, List.length_cons] at hcount
  simp only [lineOf, ofText]
  omega

theorem column_positionOf_le (text : String) (offset : Nat) :
    ((ofText text).positionOf text offset).column ≤ byteLength text.toList := by
  simp only [positionOf]
  generalize hbytes : min offset (byteLength text.toList) -
    (ofText text).startOf ((ofText text).lineOf offset) = bytes
  have hle : bytes ≤ byteLength text.toList := by omega
  generalize hcounted : charactersIn _ bytes = counted
  cases counted with
  | none => exact hle
  | some n => exact Nat.le_trans (charactersIn_le hcounted) hle

/-- What the lines answer for an offset, be it of the text or not, fits. -/
theorem fits_positionOf {text : String} (h : byteLength text.toList < UInt32.size) (offset : Nat) :
    ((ofText text).positionOf text offset).Fits where
  line := Nat.lt_of_le_of_lt (lineOf_le text offset) h
  column := Nat.lt_of_le_of_lt (column_positionOf_le text offset) h

end Lines

theorem Located.fits {text : String} {l : Location} (hl : Located text l)
    (h : byteLength text.toList < UInt32.size) : l.Fits where
  start := Nat.lt_of_le_of_lt (Nat.le_trans hl.ordered hl.inText) h
  stop := Nat.lt_of_le_of_lt hl.inText h
  position := by
    rw [hl.position]
    exact Lines.fits_positionOf h _

/-- Every place that the lines of a text give, and every one that scanning or reading the text
reports, fits in 32 bits if the length of the text does. -/
theorem places_fit [IdentifierTable] {text : String} (h : byteLength text.toList < UInt32.size) :
    (∀ start ∈ (Lines.ofText text).starts, start < UInt32.size) ∧
    (∀ offset, ((Lines.ofText text).positionOf text offset).Fits) ∧
    (∀ n, match ((Lexer.ofText text).after n).next.1 with
      | .ok t => t.location.Fits ∧ ∀ comment ∈ t.comments, comment.location.Fits
      | .error e => e.location.Fits) ∧
    (match Script.ofText text with
      | .ok s => ∀ w ∈ s.warnings, w.location.Fits
      | .error e => e.location.Fits) := by
  refine ⟨fun start hstart => ?_, Lines.fits_positionOf h, fun n => ?_, ?_⟩
  · exact Nat.lt_of_le_of_lt (Lines.le_of_mem_starts hstart) h
  · have hscan := Lexer.located_next (Lexer.reached_after text n)
    split
    · rename_i t hnext
      rw [hnext] at hscan
      exact ⟨hscan.1.fits h, fun comment hmem => (hscan.2 comment hmem).fits h⟩
    · rename_i e hnext
      rw [hnext] at hscan
      exact Located.fits hscan h
  · have hread := Script.located_ofText text
    split
    · rename_i s hs
      rw [hs] at hread
      exact fun w hw => (hread w hw).fits h
    · rename_i e he
      rw [he] at hread
      exact Located.fits hread h

end ScriptOutline
