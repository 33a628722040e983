/-
What a gap reads, by what stands first in it: a blank, a line break, a comment or one that is never
closed.  The characters of rendered pieces are listed piece by piece, so that a gap of a printed
text is read the same way.
-/
import ScriptOutline.Proofs.Semicolons
import ScriptOutline.Proofs.Spelling

namespace ScriptOutline

open Text

namespace Piece

def chars (indentation : String) (ps : List Piece) : List Char :=
  ps.flatMap fun p => (p.text indentation).toList

theorem toList_render (indentation : String) (ps : List Piece) :
    (render indentation ps).toList = chars indentation ps := by
  simp [render, chars, List.flatMap_def, Function.comp_def]

section
variable (indentation : String) (ps : List Piece)

theorem chars_cons (p : Piece) :
    chars indentation (p :: ps) = (p.text indentation).toList ++ chars indentation ps :=
  List.flatMap_cons

@[simp] theorem chars_word (s : String) :
    chars indentation (word s :: ps) = s.toList ++ chars indentation ps := by
  rw [chars_cons, text]

@[simp] theorem chars_space : chars indentation (space :: ps) = ' ' :: chars indentation ps := by
  rw [chars_cons, text]
  simp

@[simp] theorem chars_newline :
    chars indentation (newline :: ps) = '\n' :: chars indentation ps := by
  rw [chars_cons, text]
  simp

@[simp] theorem chars_indent (level : Nat) :
    chars indentation (indent level :: ps) =
      (List.replicate level indentation.toList).flatten ++ chars indentation ps := by
  rw [chars_cons, text, String.toList_join, List.flatMap_replicate]

end

end Piece

namespace Gap

theorem isLineBreak_of_isBlank {c : Char} (h : isBlank c = true) : isLineBreak c = false := by
  have hall : ∀ d ∈ lineBreaks, isBlank d = false := forall_mem_of_all (by decide)
  cases hb : isLineBreak c with
  | false => rfl
  | true =>
    rw [hall c (mem_lineBreaks hb)] at h
    cases h

theorem read_cons {c : Cursor} {ch : Char} {rest : List Char} (h : c.rest = ch :: rest)
    (hslash : ch ≠ '/') :
    read c = if isLineBreak ch then { read c.step with lineBreak := true }
      else if isBlank ch then read c.step else { cursor := c } := by
  rw [read]
  split
  · rename_i hrest
    rw [h] at hrest
    exact absurd (List.cons.inj hrest).1 hslash
  · rename_i hrest
    rw [h] at hrest
    exact absurd (List.cons.inj hrest).1 hslash
  · rename_i hrest
    rw [h] at hrest
    obtain ⟨rfl, rfl⟩ := List.cons.inj hrest
    rfl
  · rename_i hrest
    rw [h] at hrest
    cases hrest

theorem read_blank {c : Cursor} {ch : Char} {rest : List Char} (h : c.rest = ch :: rest)
    (hb : isBlank ch = true) : read c = read c.step := by
  have hslash : ch ≠ '/' := by
    rintro rfl
    cases hb
  simp [read_cons h hslash, isLineBreak_of_isBlank hb, hb]

theorem read_lineBreak {c : Cursor} {ch : Char} {rest : List Char} (h : c.rest = ch :: rest)
    (hb : isLineBreak ch = true) : read c = { read c.step with lineBreak := true } := by
  rw [read_cons h (ne_of_isLineBreak hb rfl), if_pos hb]

theorem read_blanks {c : Cursor} {blanks rest : List Char} (h : c.rest = blanks ++ rest)
    (hb : ∀ ch ∈ blanks, isBlank ch = true) : read c = read (c.move blanks.length) := by
  induction blanks generalizing c with
  | nil => rfl
  | cons ch blanks ih =>
    have hrest : c.rest = ch :: (blanks ++ rest) := h
    rw [read_blank hrest (hb ch List.mem_cons_self), List.length_cons, Cursor.move]
    refine ih ?_ fun d hd => hb d (List.mem_cons_of_mem ch hd)
    rw [Cursor.rest_step, hrest, List.tail_cons]

theorem takeWhile_line {text rest : List Char} (h : ∀ d ∈ text, isLineBreak d = false)
    (hrest : ∀ d, rest.head? = some d → isLineBreak d = true) :
    (text ++ rest).takeWhile (!isLineBreak ·) = text := by
  rw [List.takeWhile_append_of_pos (by simpa using h)]
  cases rest with
  | nil => simp
  | cons d rest => simp [hrest d rfl]

theorem read_line {c : Cursor} {text rest : List Char} (h : c.rest = '/' :: '/' :: (text ++ rest))
    (ht : ∀ d ∈ text, isLineBreak d = false)
    (hrest : ∀ d, rest.head? = some d → isLineBreak d = true) :
    read c = (read (c.move (2 + text.length))).withComment
      { kind := .line, text := String.ofList text
        location := c.locate (c.move (2 + text.length)) } false := by
  rw [read]
  split
  · rename_i body hbody
    rw [h] at hbody
    obtain rfl : text ++ rest = body := (List.cons.inj (List.cons.inj hbody).2).2
    rw [takeWhile_line ht hrest]
  · rename_i hbody
    rw [h] at hbody
    exact absurd (List.cons.inj (List.cons.inj hbody).2).1 (by decide)
  · rename_i ch rest' h1 h2 hbody
    rw [h] at hbody
    exact (h1 _ (List.cons.inj hbody).1.symm (List.cons.inj hbody).2.symm).elim
  · rename_i hbody
    rw [h] at hbody
    cases hbody

theorem closeComment?_append {text : List Char} (h : ¬ ['*', '/'] <:+: text) (rest : List Char) :
    closeComment? (text ++ '*' :: '/' :: rest) = some (text, rest) := by
  induction text with
  | nil => rfl
  | cons c cs ih =>
    have hcs : ¬ ['*', '/'] <:+: cs := fun hi => h (List.infix_cons_iff.2 (.inr hi))
    rw [List.cons_append, closeComment?, ih hcs]
    · rfl
    · rintro ds rfl hds
      cases cs with
      | nil => simp at hds
      | cons d cs =>
        obtain ⟨rfl, -⟩ := List.cons.inj hds
        exact h ⟨[], cs, rfl⟩

theorem read_block {c : Cursor} {text rest : List Char}
    (h : c.rest = '/' :: '*' :: (text ++ '*' :: '/' :: rest)) (ht : ¬ ['*', '/'] <:+: text) :
    read c = (read (c.move (4 + text.length))).withComment
      { kind := .block, text := String.ofList text
        location := c.locate (c.move (4 + text.length)) } (text.any isLineBreak) := by
  rw [read]
  split
  · rename_i body hbody
    rw [h] at hbody
    exact absurd (List.cons.inj (List.cons.inj hbody).2).1 (by decide)
  · rename_i body hbody
    rw [h] at hbody
    obtain rfl : text ++ '*' :: '/' :: rest = body := (List.cons.inj (List.cons.inj hbody).2).2
    split
    · rename_i hc
      rw [closeComment?_append ht] at hc
      obtain ⟨rfl, rfl⟩ := Prod.mk.inj (Option.some.inj hc)
      rfl
    · rename_i hc
      rw [closeComment?_append ht] at hc
      cases hc
  · rename_i ch rest' h1 h2 hbody
    rw [h] at hbody
    exact (h2 _ (List.cons.inj hbody).1.symm (List.cons.inj hbody).2.symm).elim
  · rename_i hbody
    rw [h] at hbody
    cases hbody

theorem read_unclosed {c : Cursor} {body : List Char} (h : c.rest = '/' :: '*' :: body)
    (hbody : closeComment? body = none) : read c = { cursor := c, unclosed := true } := by
  rw [read]
  split
  · rename_i hrest
    rw [h] at hrest
    exact absurd (List.cons.inj (List.cons.inj hrest).2).1 (by decide)
  · rename_i body' hrest
    rw [h] at hrest
    obtain rfl : body = body' := (List.cons.inj (List.cons.inj hrest).2).2
    split
    · rename_i hc
      rw [hbody] at hc
      cases hc
    · rfl
  · rename_i ch rest' h1 h2 hrest
    rw [h] at hrest
    exact (h2 _ (List.cons.inj hrest).1.symm (List.cons.inj hrest).2.symm).elim
  · rename_i hrest
    rw [h] at hrest
    cases hrest

end Gap

namespace Piece

variable {indentation : String}

end Piece
end ScriptOutline
