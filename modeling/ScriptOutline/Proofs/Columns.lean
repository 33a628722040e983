/-
Positions three ways.

A cursor keeps its line and column as it moves.  `Lines.positionOf` finds them again from
a byte offset alone.  `Columns` does the latter faster: it remembers the last position it
was asked for and counts on from there if the next one is behind it on the same line.
All three agree at every place between two characters.
-/
import ScriptOutline.Proofs.Coverage
import ScriptOutline.Text.Lines

namespace ScriptOutline

open Text

theorem Text.byteLength_cons_eq_succ (c : Char) (cs : List Char) :
    ∃ n, byteLength (c :: cs) = n + 1 := by
  have hpos := byteLength_pos (List.cons_ne_nil c cs)
  exact ⟨byteLength (c :: cs) - 1, by omega⟩

namespace Lines

theorem dropBytes_append (pre post : List Char) :
    dropBytes (pre ++ post) (byteLength pre) = post := by
  induction pre with
  | nil => cases post <;> rfl
  | cons c pre ih =>
    obtain ⟨n, hn⟩ := byteLength_cons_eq_succ c pre
    have hsub : n + 1 - c.utf8Size = byteLength pre := by
      rw [← hn, byteLength, Nat.add_sub_cancel_left]
    rw [hn, List.cons_append, dropBytes, hsub, ih]
    exact Nat.succ_ne_zero n

theorem charactersIn_append (pre post : List Char) :
    charactersIn (pre ++ post) (byteLength pre) = some pre.length := by
  induction pre with
  | nil => cases post <;> rfl
  | cons c pre ih =>
    obtain ⟨n, hn⟩ := byteLength_cons_eq_succ c pre
    have hle : c.utf8Size ≤ n + 1 := by
      rw [← hn, byteLength]
      exact Nat.le_add_right _ _
    have hsub : n + 1 - c.utf8Size = byteLength pre := by
      rw [← hn, byteLength, Nat.add_sub_cancel_left]
    rw [hn, List.cons_append, charactersIn, if_pos hle, hsub, ih]
    rfl

theorem lt_of_mem_startsAfter {offset start : Nat} {cs : List Char}
    (h : start ∈ startsAfter offset cs) : offset < start := by
  induction cs generalizing offset with
  | nil => cases h
  | cons c cs ih =>
    have hpos := c.utf8Size_pos
    simp only [startsAfter] at h
    split at h
    · rcases List.mem_cons.1 h with rfl | h
      · omega
      · have := ih h
        omega
    · have := ih h
      omega

end Lines

namespace Cursor

/-- The characters `line` stand between the start of the cursor's line and the cursor. -/
structure OnLine (cs : List Char) (c : Cursor) (head line : List Char) : Prop where
  text : cs = head ++ (line ++ c.rest)
  offset : c.offset = byteLength head + byteLength line
  column : c.position.column = line.length
  /-- The lines that start up to the cursor, the last of them behind `head`. -/
  starts : ∃ earlier, 0 :: Lines.startsAfter 0 cs = earlier ++ byteLength head ::
    Lines.startsAfter c.offset c.rest ∧ earlier.length = c.position.line ∧
    ∀ start ∈ earlier, start ≤ c.offset

variable {cs head line : List Char} {c : Cursor}

theorem OnLine.step (h : OnLine cs c head line) : ∃ head line, OnLine cs c.step head line := by
  obtain ⟨earlier, hstarts, hcount, hle⟩ := h.starts
  unfold Cursor.step
  split
  · exact ⟨head, line, h⟩
  · rename_i ch rest hrest
    have htext := h.text
    have hoffset := h.offset
    rw [hrest] at htext hstarts
    simp only [Lines.startsAfter] at hstarts
    by_cases hends : endsLine ch rest.head? = true
    · simp only [hends, if_true] at hstarts ⊢
      refine ⟨head ++ line ++ [ch], [], ?_, ?_, rfl, earlier ++ [byteLength head], ?_, ?_, ?_⟩
      · simp [htext]
      · simp [byteLength, hoffset, Nat.add_assoc]
      · simp [byteLength, hstarts, hoffset, Nat.add_assoc]
      · simp [hcount]
      · intro start hmem
        rcases List.mem_append.1 hmem with hmem | hmem
        · exact Nat.le_add_right_of_le (hle start hmem)
        · rw [List.mem_singleton] at hmem
          simp only
          omega
    · simp only [hends, Bool.false_eq_true, if_false] at hstarts ⊢
      refine ⟨head, line ++ [ch], ?_, ?_, ?_, earlier, hstarts, hcount, ?_⟩
      · simp [htext]
      · simp [byteLength, hoffset, Nat.add_assoc]
      · simp [h.column]
      · exact fun start hmem => Nat.le_add_right_of_le (hle start hmem)

theorem OnLine.move (h : OnLine cs c head line) (n : Nat) :
    ∃ head line, OnLine cs (c.move n) head line := by
  induction n generalizing c head line with
  | zero => exact ⟨head, line, h⟩
  | succ n ih =>
    obtain ⟨head', line', h'⟩ := h.step
    exact ih h'

theorem onLine_ofText (text : String) : OnLine text.toList (ofText text) [] [] :=
  ⟨rfl, rfl, rfl, [], rfl, rfl, fun _ h => nomatch h⟩

/-- The cursors that reading a text comes to. -/
def Reached (text : String) (c : Cursor) : Prop := ∃ head line, OnLine text.toList c head line

variable {text : String}

theorem reached_ofText (text : String) : Reached text (ofText text) := ⟨[], [], onLine_ofText text⟩

theorem Reached.move (h : Reached text c) (n : Nat) : Reached text (c.move n) := by
  obtain ⟨head, line, h⟩ := h
  exact h.move n

end Cursor

namespace Cursor.OnLine

variable {text : String} {c : Cursor} {head line : List Char}

theorem lineOf_eq (h : OnLine text.toList c head line) :
    (Lines.ofText text).lineOf c.offset = c.position.line := by
  obtain ⟨earlier, hstarts, hcount, hle⟩ := h.starts
  have hearlier : earlier.countP (· ≤ c.offset) = earlier.length :=
    List.countP_eq_length.2 fun start hmem => decide_eq_true (hle start hmem)
  have hlater : (Lines.startsAfter c.offset c.rest).countP (· ≤ c.offset) = 0 := by
    refine List.countP_eq_zero.2 fun start hmem => ?_
    have := Lines.lt_of_mem_startsAfter hmem
    simpa using this
  have hhere : byteLength head ≤ c.offset := by
    rw [h.offset]
    exact Nat.le_add_right _ _
  rw [Lines.lineOf, Lines.ofText, hstarts, List.countP_append, List.countP_cons, hearlier, hlater]
  simp [hhere, hcount]

theorem startOf_eq (h : OnLine text.toList c head line) :
    (Lines.ofText text).startOf c.position.line = byteLength head := by
  obtain ⟨earlier, hstarts, hcount, -⟩ := h.starts
  rw [Lines.startOf, Lines.ofText, hstarts, ← hcount]
  simp

/-- A cursor keeps the position that its offset has in the text. -/
theorem positionOf_eq (h : OnLine text.toList c head line) :
    (Lines.ofText text).positionOf text c.offset = c.position := by
  have hend : min c.offset (byteLength text.toList) = c.offset := by
    rw [h.text, h.offset, byteLength_append, byteLength_append]
    omega
  have hbytes : c.offset - byteLength head = byteLength line := by
    rw [h.offset, Nat.add_sub_cancel_left]
  have hdrop : Lines.dropBytes text.toList (byteLength head) = line ++ c.rest := by
    rw [h.text]
    exact Lines.dropBytes_append _ _
  unfold Lines.positionOf
  simp only [h.lineOf_eq, h.startOf_eq, hend, hbytes, hdrop, Lines.charactersIn_append,
    Option.getD_some, ← h.column]

end Cursor.OnLine

theorem Cursor.Reached.positionOf_eq {text : String} {c : Cursor} (h : c.Reached text) :
    (Lines.ofText text).positionOf text c.offset = c.position := by
  obtain ⟨head, line, h⟩ := h
  exact h.positionOf_eq

/-- The last position asked for. -/
structure Columns where
  line : Nat := 0
  offset : Nat := 0
  column : Nat := 0

namespace Columns

/-- The position of a byte, counted from the last one if that is before it on the same
line, and from the start of its line otherwise. -/
def positionAt (lines : Lines) (text : String) (known : Columns) (offset : Nat) :
    Position × Columns :=
  let line := lines.lineOf offset
  let base : Columns :=
    if line ≠ known.line ∨ offset < known.offset then { line, offset := lines.startOf line }
    else known
  let between := Lines.charactersIn (Lines.dropBytes text.toList base.offset) (offset - base.offset)
  let column := base.column + between.getD 0
  ({ line, column }, { line, offset, column })

def positionsAt (lines : Lines) (text : String) (known : Columns) : List Nat → List Position
  | [] => []
  | offset :: offsets =>
    (known.positionAt lines text offset).1 ::
      positionsAt lines text (known.positionAt lines text offset).2 offsets

def ofCursor (c : Cursor) : Columns :=
  { line := c.position.line, offset := c.offset, column := c.position.column }

theorem eq_append_of_byteLength_le {xs xs' ys ys' : List Char} (h : xs ++ xs' = ys ++ ys')
    (hle : byteLength xs ≤ byteLength ys) : ∃ zs, ys = xs ++ zs ∧ xs' = zs ++ ys' := by
  rcases List.append_eq_append_iff.1 h with ⟨zs, hys, hxs⟩ | ⟨zs, hxs, hys⟩
  · exact ⟨zs, hys, hxs⟩
  · cases zs with
    | nil => exact ⟨[], by simpa using hxs.symm, by simpa using hys.symm⟩
    | cons z zs =>
      have hpos := byteLength_pos (List.cons_ne_nil z zs)
      rw [hxs, byteLength_append] at hle
      omega

theorem append_inj_of_byteLength_eq {xs xs' ys ys' : List Char} (h : xs ++ xs' = ys ++ ys')
    (heq : byteLength xs = byteLength ys) : xs' = ys' := by
  obtain ⟨zs, hys, hxs⟩ := eq_append_of_byteLength_le h (Nat.le_of_eq heq)
  cases zs with
  | nil => exact hxs
  | cons z zs =>
    have hpos := byteLength_pos (List.cons_ne_nil z zs)
    rw [hys, byteLength_append] at heq
    omega

variable {text : String} {c d : Cursor}

/-- From one place in a text to another, before or behind it, on its line or elsewhere. -/
theorem positionAt_ofCursor (hc : c.Reached text) (hd : d.Reached text) :
    (ofCursor c).positionAt (.ofText text) text d.offset = (d.position, ofCursor d) := by
  obtain ⟨head, line, hc⟩ := hc
  obtain ⟨head', line', hd⟩ := hd
  have htext : text.toList = head' ++ (line' ++ d.rest) := hd.text
  unfold positionAt
  simp only [hd.lineOf_eq, hd.startOf_eq, ofCursor]
  by_cases hreset : d.position.line ≠ c.position.line ∨ d.offset < c.offset
  · have hdrop : Lines.dropBytes text.toList (byteLength head') = line' ++ d.rest := by
      rw [htext, Lines.dropBytes_append]
    have hbytes : d.offset - byteLength head' = byteLength line' := by
      rw [hd.offset, Nat.add_sub_cancel_left]
    simp only [if_pos hreset, hdrop, hbytes, Lines.charactersIn_append, Option.getD_some,
      ← hd.column, Nat.zero_add]
  · obtain ⟨hline, hle⟩ : d.position.line = c.position.line ∧ c.offset ≤ d.offset := by omega
    -- both places are on one line, so what stands before it is the same
    have hhead : byteLength head = byteLength head' := by
      rw [← hc.startOf_eq, ← hd.startOf_eq, hline]
    have hbehind := append_inj_of_byteLength_eq (hc.text.symm.trans htext) hhead
    have hline_le : byteLength line ≤ byteLength line' := by
      rw [hc.offset, hd.offset, hhead] at hle
      exact Nat.le_of_add_le_add_left hle
    obtain ⟨between, hbetween, hrest⟩ := eq_append_of_byteLength_le hbehind hline_le
    have hdrop : Lines.dropBytes text.toList c.offset = between ++ d.rest := by
      rw [hc.text, hc.offset, ← List.append_assoc, ← byteLength_append, Lines.dropBytes_append,
        hrest]
    have hbytes : d.offset - c.offset = byteLength between := by
      rw [hd.offset, hc.offset, hhead, hbetween, byteLength_append]
      omega
    have hcolumn : c.position.column + between.length = d.position.column := by
      rw [hc.column, hd.column, hbetween, List.length_append]
    simp only [if_neg hreset, hdrop, hbytes, Lines.charactersIn_append, Option.getD_some, hcolumn]

theorem positionsAt_ofCursor (hc : c.Reached text) {ds : List Cursor}
    (hds : ∀ d ∈ ds, d.Reached text) :
    (ofCursor c).positionsAt (.ofText text) text (ds.map (·.offset)) = ds.map (·.position) := by
  induction ds generalizing c with
  | nil => rfl
  | cons d ds ih =>
    have hd := hds d List.mem_cons_self
    have hrest := ih hd fun d' hmem => hds d' (List.mem_cons_of_mem d hmem)
    rw [List.map_cons, List.map_cons, positionsAt, positionAt_ofCursor hc hd, hrest]

end Columns

end ScriptOutline
