/-
White space behind a line feed does not matter.

`Reindented` relates characters to the same characters with other white space behind each
line feed.  Outside comments a line feed ends every token, so the gaps, cuts and scans of
related characters are related, and no string goes on behind its line because no
backslash ends one.
-/
import ScriptOutline.Proofs.LineEndings

namespace ScriptOutline

open Text

/-- The same characters but for the white space behind line feeds; `fresh` says that none
but white space stands between the last line feed and these. -/
inductive Reindented : Bool → List Char → List Char → Prop where
  | nil {fresh : Bool} : Reindented fresh [] []
  | char {fresh : Bool} {c : Char} {as bs : List Char} (inLine : isLineBreak c = false)
      (goesOn : c = '\\' → ∃ d ∈ as.head?, isLineBreak d = false) (rest : Reindented false as bs) :
      Reindented fresh (c :: as) (c :: bs)
  | newline {fresh : Bool} {as bs : List Char} (rest : Reindented true as bs) :
      Reindented fresh ('\n' :: as) ('\n' :: bs)
  | left {c : Char} {as bs : List Char} (space : isSpace c = true) (rest : Reindented true as bs) :
      Reindented true (c :: as) bs
  | right {c : Char} {as bs : List Char} (space : isSpace c = true) (rest : Reindented true as bs) :
      Reindented true as (c :: bs)

namespace Reindented

variable {fresh : Bool} {as bs : List Char}

theorem head?_eq (h : Reindented false as bs) : as.head? = bs.head? := by
  cases h <;> rfl

theorem symm (h : Reindented fresh as bs) : Reindented fresh bs as := by
  induction h with
  | nil => exact .nil
  | char inLine goesOn rest ih => exact .char inLine (fun hc => rest.head?_eq ▸ goesOn hc) ih
  | newline _ ih => exact .newline ih
  | left space _ ih => exact .right space ih
  | right space _ ih => exact .left space ih

theorem firstLine_eq (h : Reindented false as bs) : firstLine as = firstLine bs := by
  generalize hfresh : false = fresh at h
  induction h with
  | nil => rfl
  | char inLine _ _ ih => rw [firstLine_cons inLine, firstLine_cons inLine, ih rfl]
  | newline => rw [firstLine_lineBreak rfl, firstLine_lineBreak rfl]
  | left | right => cases hfresh

/-- No first line ends with a backslash. -/
theorem getLast?_firstLine (h : Reindented false as bs) : (firstLine as).getLast? ≠ some '\\' := by
  generalize hfresh : false = fresh at h
  induction h with
  | nil => exact nofun
  | @char _ c as _ inLine goesOn _ ih =>
    have hrest := ih rfl
    rw [firstLine_cons inLine, List.getLast?_cons]
    intro hlast
    cases hline : (firstLine as).getLast? with
    | none =>
      rw [hline] at hlast
      obtain ⟨d, hd, hbreak⟩ := goesOn (Option.some.inj hlast)
      obtain ⟨rest, rfl⟩ := List.head?_eq_some_iff.mp hd
      rw [firstLine_cons hbreak] at hline
      simp at hline
    | some d =>
      rw [hline] at hlast hrest
      exact hrest hlast
  | newline => rw [firstLine_lineBreak rfl]; exact nofun
  | left | right => cases hfresh

/-- Within the first line the same stands behind the same. -/
theorem drop (h : Reindented false as bs) {n : Nat} (hn : n ≤ (firstLine as).length) :
    Reindented false (as.drop n) (bs.drop n) := by
  induction n generalizing as bs with
  | zero => exact h
  | succ n ih =>
    cases h with
    | nil => exact .nil
    | char inLine _ rest =>
      rw [firstLine_cons inLine, List.length_cons] at hn
      exact ih rest (by omega)
    | newline =>
      rw [firstLine_lineBreak rfl] at hn
      exact absurd hn (Nat.not_succ_le_zero n)

/-- The same end of a comment.  Behind a line feed the white space may hold more line
breaks, so the texts need not agree in that. -/
structure ClosesAlike (fresh : Bool) (r r' : List Char × List Char) : Prop where
  rest : Reindented false r.2 r'.2
  lineBreak : fresh = false → r'.1.any isLineBreak = r.1.any isLineBreak

/-- Only a star before a slash ends a comment. -/
theorem closeComment?_cons {c : Char} {cs : List Char} (h : c = '*' → cs.head? ≠ some '/') :
    closeComment? (c :: cs) = (closeComment? cs).map fun r => (c :: r.1, r.2) := by
  rw [closeComment?]
  rintro rest rfl rfl
  exact h rfl rfl

theorem closeComment?_space {c : Char} (h : isSpace c = true) (cs : List Char) :
    closeComment? (c :: cs) = (closeComment? cs).map fun r => (c :: r.1, r.2) := by
  apply closeComment?_cons
  rintro rfl
  cases h

/-- Characters in front of the same end of a comment. -/
theorem closesAlike_map {fresh fresh' : Bool} {f g : List Char × List Char → List Char × List Char}
    {x y : Option (List Char × List Char)} (h : Option.Rel (ClosesAlike fresh) x y)
    (hfg : ∀ r r', ClosesAlike fresh r r' → ClosesAlike fresh' (f r) (g r')) :
    Option.Rel (ClosesAlike fresh') (x.map f) (y.map g) := by
  cases h with
  | none => exact .none
  | some h => exact .some (hfg _ _ h)

theorem closeComment?_rel (h : Reindented fresh as bs) :
    Option.Rel (ClosesAlike fresh) (closeComment? as) (closeComment? bs) := by
  induction h with
  | nil => exact .none
  | @char fresh c as bs inLine goesOn rest ih =>
    by_cases hends : c = '*' ∧ as.head? = some '/'
    · obtain ⟨rfl, hslash⟩ := hends
      obtain ⟨as', rfl⟩ := List.head?_eq_some_iff.mp hslash
      cases rest with
      | char _ _ rest => exact .some ⟨rest, fun _ => rfl⟩
    · have hcons (hc : c = '*') : as.head? ≠ some '/' := fun hslash => hends ⟨hc, hslash⟩
      rw [closeComment?_cons hcons, closeComment?_cons (rest.head?_eq ▸ hcons)]
      refine closesAlike_map ih fun r r' hr => ⟨hr.rest, fun _ => ?_⟩
      rw [List.any_cons, List.any_cons, hr.lineBreak rfl]
  | newline _ ih =>
    rw [closeComment?_space rfl, closeComment?_space rfl]
    exact closesAlike_map ih fun r r' hr => ⟨hr.rest, fun _ => rfl⟩
  | @left c as bs space _ ih =>
    have hleft : Option.Rel (ClosesAlike true) ((closeComment? as).map fun r => (c :: r.1, r.2))
        ((closeComment? bs).map id) := closesAlike_map ih fun _ _ hr => ⟨hr.rest, nofun⟩
    rw [closeComment?_space space]
    rwa [Option.map_id, id] at hleft
  | @right c as bs space _ ih =>
    have hright : Option.Rel (ClosesAlike true) ((closeComment? as).map id)
        ((closeComment? bs).map fun r => (c :: r.1, r.2)) :=
      closesAlike_map ih fun _ _ hr => ⟨hr.rest, nofun⟩
    rw [closeComment?_space space]
    rwa [Option.map_id, id] at hright

end Reindented

namespace Gap

/-- The gap goes on further behind, with line breaks passed on the way or not. -/
structure GoesOn (lineBreak : Bool) (c after : Cursor) : Prop where
  cursor : (read c).cursor = (read after).cursor
  unclosed : (read c).unclosed = (read after).unclosed
  lineBreak_eq : (read c).lineBreak = (lineBreak || (read after).lineBreak)
  shorter : after.rest.length < c.rest.length

theorem goesOn_space {c : Cursor} {ch : Char} {rest : List Char} (h : c.rest = ch :: rest)
    (hspace : isSpace ch = true) : GoesOn (isLineBreak ch) c c.step := by
  have hshorter : c.step.rest.length < c.rest.length := by
    rw [Cursor.rest_step, h]
    exact Nat.lt_succ_self _
  cases hb : isLineBreak ch with
  | true =>
    have hread := read_lineBreak h hb
    exact ⟨by rw [hread], by rw [hread], by rw [hread]; rfl, hshorter⟩
  | false =>
    rw [isSpace, hb, Bool.false_or] at hspace
    have hread := read_blank h hspace
    exact ⟨by rw [hread], by rw [hread], by rw [hread, Bool.false_or], hshorter⟩

theorem goesOn_line {c : Cursor} {body : List Char} (h : c.rest = '/' :: '/' :: body) :
    GoesOn false c (c.move (2 + (firstLine body).length)) := by
  obtain ⟨rest, hbody, hends⟩ := eq_firstLine_append body
  have hline : c.rest = '/' :: '/' :: (firstLine body ++ rest) := by rw [h, ← hbody]
  have hread := read_line hline (fun _ => isLineBreak_of_mem_firstLine) hends
  refine ⟨by rw [hread]; rfl, by rw [hread]; rfl, by rw [hread]; rfl, ?_⟩
  rw [Cursor.rest_move, List.length_drop, h, List.length_cons, List.length_cons]
  omega

theorem goesOn_block {c : Cursor} {body text rest : List Char} (h : c.rest = '/' :: '*' :: body)
    (hc : closeComment? body = some (text, rest)) :
    ∃ after, after.rest = rest ∧ GoesOn (text.any isLineBreak) c after := by
  rw [eq_of_closeComment? hc] at h
  have hread := read_block h (not_infix_of_closeComment? hc)
  have hlength : 4 + text.length = ('/' :: '*' :: text ++ ['*', '/']).length := by
    simp only [List.length_cons, List.length_append, List.length_nil]
    omega
  have hsplit : c.rest = ('/' :: '*' :: text ++ ['*', '/']) ++ rest := by simp [h]
  have hafter : (c.move (4 + text.length)).rest = rest := by
    rw [Cursor.rest_move, hsplit, hlength, List.drop_left]
  refine ⟨_, hafter, by rw [hread]; rfl, by rw [hread]; rfl, by rw [hread]; rfl, ?_⟩
  rw [hafter, h]
  simp only [List.length_cons, List.length_append]
  omega

theorem GoesOn.rest_ne {lineBreak : Bool} {c after : Cursor} (h : GoesOn lineBreak c after) :
    (read c).cursor.rest ≠ c.rest := by
  have hle := (rest_read_suffix after).length_le
  have hlt := h.shorter
  rw [h.cursor]
  intro heq
  rw [heq] at hle
  omega

/-- Gaps before the same, over line breaks or not alike unless they stand behind a line
feed. -/
structure Alike (fresh : Bool) (c d : Cursor) : Prop where
  rest : Reindented false (read c).cursor.rest (read d).cursor.rest
  unclosed : (read c).unclosed = (read d).unclosed
  lineBreak : fresh = false → (read c).lineBreak = (read d).lineBreak
  stays : fresh = false → ((read c).cursor.rest = c.rest ↔ (read d).cursor.rest = d.rest)

namespace Alike

variable {fresh fresh' unclosed b b' : Bool} {c c' d d' : Cursor}

theorem of_empty (hc : read c = { cursor := c, unclosed }) (hd : read d = { cursor := d, unclosed })
    (h : Reindented false c.rest d.rest) : Alike fresh c d := by
  refine ⟨?_, ?_, fun _ => ?_, fun _ => ?_⟩
  · rw [hc, hd]
    exact h
  · rw [hc, hd]
  · rw [hc, hd]
  · rw [hc, hd]
    exact iff_of_true rfl rfl

theorem of_startsToken (hc : startsToken c.rest = true) (hd : startsToken d.rest = true)
    (h : Reindented false c.rest d.rest) : Alike fresh c d := by
  have hreadc : read c = { cursor := c } := read_of_startsToken hc
  have hreadd : read d = { cursor := d } := read_of_startsToken hd
  exact .of_empty hreadc hreadd h

theorem of_goesOn (h : Alike fresh' c' d') (hc : GoesOn b c c') (hd : GoesOn b' d d')
    (hbreak : fresh = false → b = b' ∧ (fresh' = false ∨ b = true)) : Alike fresh c d := by
  refine ⟨?_, ?_, fun hfresh => ?_, fun _ => iff_of_false hc.rest_ne hd.rest_ne⟩
  · rw [hc.cursor, hd.cursor]
    exact h.rest
  · rw [hc.unclosed, hd.unclosed, h.unclosed]
  · obtain ⟨rfl, hfresh | rfl⟩ := hbreak hfresh
    · rw [hc.lineBreak_eq, hd.lineBreak_eq, h.lineBreak hfresh]
    · rw [hc.lineBreak_eq, hd.lineBreak_eq, Bool.true_or, Bool.true_or]

theorem of_goesOn_left (h : Alike true c' d) (hc : GoesOn b c c') : Alike true c d := by
  refine ⟨?_, ?_, nofun, nofun⟩
  · rw [hc.cursor]
    exact h.rest
  · rw [hc.unclosed, h.unclosed]

theorem of_goesOn_right (h : Alike true c d') (hd : GoesOn b d d') : Alike true c d := by
  refine ⟨?_, ?_, nofun, nofun⟩
  · rw [hd.cursor]
    exact h.rest
  · rw [hd.unclosed, h.unclosed]

end Alike

section Comments

variable {fresh : Bool} {c d : Cursor} {as bs : List Char}
  (hbehind : ∀ {c' d' : Cursor}, c'.rest.length < c.rest.length → d'.rest.length < d.rest.length →
    Reindented false c'.rest d'.rest → Alike false c' d')
include hbehind

theorem alike_line (hc : c.rest = '/' :: '/' :: as) (hd : d.rest = '/' :: '/' :: bs)
    (rest : Reindented false as bs) : Alike fresh c d := by
  have hgoes := goesOn_line hc
  have hgoes' := goesOn_line hd
  have hdrop := rest.drop (Nat.le_refl _)
  refine (hbehind hgoes.shorter hgoes'.shorter ?_).of_goesOn hgoes hgoes' fun _ => ⟨rfl, .inl rfl⟩
  rw [Cursor.rest_move, Cursor.rest_move, hc, hd, ← rest.firstLine_eq, Nat.add_comm]
  exact hdrop

theorem alike_block (hc : c.rest = '/' :: '*' :: as) (hd : d.rest = '/' :: '*' :: bs)
    (rest : Reindented false as bs) : Alike fresh c d := by
  have hcloses := rest.closeComment?_rel
  cases hclose : closeComment? as with
  | none =>
    rw [hclose] at hcloses
    cases hclose' : closeComment? bs with
    | some r' => rw [hclose'] at hcloses; cases hcloses
    | none =>
      refine .of_empty (read_unclosed hc hclose) (read_unclosed hd hclose') ?_
      rw [hc, hd]
      exact .char rfl nofun (.char rfl nofun rest)
  | some r =>
    rw [hclose] at hcloses
    cases hclose' : closeComment? bs with
    | none => rw [hclose'] at hcloses; cases hcloses
    | some r' =>
      rw [hclose'] at hcloses
      cases hcloses with
      | some hr =>
        obtain ⟨after, hafter, hgoes⟩ := goesOn_block hc hclose
        obtain ⟨after', hafter', hgoes'⟩ := goesOn_block hd hclose'
        have hrest : Reindented false after.rest after'.rest := by
          rw [hafter, hafter']
          exact hr.rest
        exact (hbehind hgoes.shorter hgoes'.shorter hrest).of_goesOn hgoes hgoes' fun _ =>
          ⟨(hr.lineBreak rfl).symm, .inl rfl⟩

end Comments

/-- By induction on how much there is on both sides, since white space is passed on one
side only and comments are passed at once. -/
theorem alike_of_reindented {fresh : Bool} {c d : Cursor} (h : Reindented fresh c.rest d.rest) :
    Alike fresh c d := by
  generalize hn : c.rest.length + d.rest.length = n
  induction n using Nat.strong_induction_on generalizing fresh c d with
  | _ n ih =>
    have hbehind {fresh' : Bool} {c' d' : Cursor} (hc' : c'.rest.length < c.rest.length)
        (hd' : d'.rest.length < d.rest.length) (hrest : Reindented fresh' c'.rest d'.rest) :
        Alike fresh' c' d' :=
      ih _ (by omega) hrest rfl
    have hstep {ch : Char} {as bs : List Char} {fresh' : Bool} (hc : c.rest = ch :: as)
        (hd : d.rest = ch :: bs) (hspace : isSpace ch = true) (hrest : Reindented fresh' as bs)
        (hbreak : fresh' = false ∨ isLineBreak ch = true) : Alike fresh c d := by
      have hgoes := goesOn_space hc hspace
      have hgoes' := goesOn_space hd hspace
      have hrest : Reindented fresh' c.step.rest d.step.rest := by
        rw [Cursor.rest_step, Cursor.rest_step, hc, hd]
        exact hrest
      exact (hbehind hgoes.shorter hgoes'.shorter hrest).of_goesOn hgoes hgoes' fun _ =>
        ⟨rfl, hbreak⟩
    generalize hc : c.rest = as at h
    generalize hd : d.rest = bs at h
    cases h with
    | nil =>
      exact .of_startsToken (by rw [hc]; rfl) (by rw [hd]; rfl) (by rw [hc, hd]; exact .nil)
    | newline rest => exact hstep hc hd rfl rest (.inr rfl)
    | left space rest =>
      have hgoes := goesOn_space hc space
      have hshorter := hgoes.shorter
      have hrest : Reindented true c.step.rest d.rest := by
        rw [Cursor.rest_step, hc, hd]
        exact rest
      exact (ih _ (by omega) hrest rfl).of_goesOn_left hgoes
    | right space rest =>
      have hgoes := goesOn_space hd space
      have hshorter := hgoes.shorter
      have hrest : Reindented true c.rest d.step.rest := by
        rw [Cursor.rest_step, hc, hd]
        exact rest
      exact (ih _ (by omega) hrest rfl).of_goesOn_right hgoes
    | @char _ ch as bs inLine goesOn rest =>
      by_cases hspace : isSpace ch = true
      · exact hstep hc hd hspace rest (.inl rfl)
      by_cases hline : ch = '/' ∧ as.head? = some '/'
      · obtain ⟨rfl, hslash⟩ := hline
        obtain ⟨as', rfl⟩ := List.head?_eq_some_iff.mp hslash
        cases rest with
        | char _ _ rest => exact alike_line hbehind hc hd rest
      by_cases hblock : ch = '/' ∧ as.head? = some '*'
      · obtain ⟨rfl, hstar⟩ := hblock
        obtain ⟨as', rfl⟩ := List.head?_eq_some_iff.mp hstar
        cases rest with
        | char _ _ rest => exact alike_block hbehind hc hd rest
      have hstart {cs : List Char} (hcs : cs.head? = as.head?) : startsToken (ch :: cs) = true := by
        refine startsToken_cons_iff.mpr ⟨by simpa using hspace, fun hslash => ?_⟩
        rw [hcs]
        exact ⟨fun h => hline ⟨hslash, h⟩, fun h => hblock ⟨hslash, h⟩⟩
      refine .of_startsToken (hc ▸ hstart rfl) (hd ▸ hstart rest.head?_eq.symm) ?_
      rw [hc, hd]
      exact .char inLine goesOn rest

end Gap

/-! ## Tokens -/

/-- The same token is cut off, and off the first line. -/
theorem Reindented.cut_eq [IdentifierTable] {as bs : List Char} (h : Reindented false as bs)
    (allowed : Bool) (hstart : startsToken as = true) (hstart' : startsToken bs = true) :
    Cut.read allowed as = Cut.read allowed bs ∧
      (Cut.read allowed as).passed ≤ (firstLine as).length := by
  have hfirst := Cut.read_firstLine_of_getLast? allowed hstart h.getLast?_firstLine
  have hsecond := Cut.read_firstLine_of_getLast? allowed hstart' h.symm.getLast?_firstLine
  refine ⟨?_, ?_⟩
  · rw [← hfirst, ← hsecond, h.firstLine_eq]
  · rw [← hfirst]
    exact Cut.passed_le allowed _

/-- A text beside another: the same tokens or the same fault, at places of their own. -/
def Pairing.elsewhere : Pairing :=
  whole (fun s t => s.signs = t.signs) (fun d e => d.fault = e.fault) id

theorem drop_eq_iff {as bs : List Char} {n : Nat} (h : as <:+ bs) (hn : n ≤ as.length) :
    as.drop n = bs ↔ as = bs ∧ n = 0 := by
  constructor
  · intro hdrop
    have hle := h.length_le
    have hlength := congrArg List.length hdrop
    rw [List.length_drop] at hlength
    have hzero : n = 0 := by omega
    rw [hzero, List.drop_zero] at hdrop
    exact ⟨hdrop, hzero⟩
  · rintro ⟨rfl, rfl⟩
    exact List.drop_zero

namespace Lexer

structure Reindented (l m : Lexer) : Prop where
  rest : ScriptOutline.Reindented false l.cursor.rest m.cursor.rest
  regexpAllowed : l.regexpAllowed = m.regexpAllowed

variable {l m : Lexer}

/-- Both scans pass the same characters behind their gaps. -/
theorem reindented_passed {c d : Cursor} (hgap : Gap.Alike false c d) {n : Nat}
    (hn : n ≤ (firstLine (Gap.read c).cursor.rest).length) (allowed : Bool) :
    ({ cursor := (Gap.read c).cursor.move n, regexpAllowed := allowed } : Lexer).Reindented
        { cursor := (Gap.read d).cursor.move n, regexpAllowed := allowed } ∧
      (((Gap.read c).cursor.move n).rest = c.rest ↔
        ((Gap.read d).cursor.move n).rest = d.rest) := by
  have hle := length_firstLine_le (Gap.read c).cursor.rest
  have hle' := length_firstLine_le (Gap.read d).cursor.rest
  have hline := hgap.rest.firstLine_eq
  refine ⟨⟨?_, rfl⟩, ?_⟩
  · show ScriptOutline.Reindented false ((Gap.read c).cursor.move n).rest
      ((Gap.read d).cursor.move n).rest
    rw [Cursor.rest_move, Cursor.rest_move]
    exact hgap.rest.drop hn
  · rw [Cursor.rest_move, Cursor.rest_move, drop_eq_iff (Gap.rest_read_suffix c) (by omega),
      drop_eq_iff (Gap.rest_read_suffix d) (by rw [hline] at hn; omega), hgap.stays rfl]

/-- Scanning gives the same token or fault, goes on alike and stays alike. -/
theorem reindented_next [IdentifierTable] (h : l.Reindented m) :
    Pairing.elsewhere.item l.next.1 m.next.1 ∧ l.next.2.Reindented m.next.2 ∧
      (l.next.2.cursor.rest = l.cursor.rest ↔ m.next.2.cursor.rest = m.cursor.rest) := by
  have hgap := Gap.alike_of_reindented h.rest
  unfold next
  dsimp only
  rw [← hgap.unclosed, ← h.regexpAllowed]
  split
  · exact ⟨rfl, ⟨hgap.rest, rfl⟩, hgap.stays rfl⟩
  · rename_i hclosed
    have hclosed := Bool.eq_false_iff.mpr hclosed
    have hstart := Gap.startsToken_read hclosed
    have hstart' := Gap.startsToken_read (hgap.unclosed.symm.trans hclosed)
    obtain ⟨hcut, hpassed⟩ := hgap.rest.cut_eq l.regexpAllowed hstart hstart'
    rw [← hcut]
    cases hread : Cut.read l.regexpAllowed (Gap.read l.cursor).cursor.rest with
    | token kind length value =>
      rw [hread] at hpassed
      refine ⟨?_, reindented_passed hgap hpassed _⟩
      show Token.signs _ = Token.signs _
      simp only [Token.signs, hgap.lineBreak rfl]
    | fault fault length passed =>
      rw [hread] at hpassed
      exact ⟨rfl, reindented_passed hgap hpassed _⟩

theorem moves_iff_rest_ne [IdentifierTable] (l : Lexer) :
    l.cursor.offset < l.next.2.cursor.offset ↔ l.next.2.cursor.rest ≠ l.cursor.rest := by
  obtain ⟨passed, hrest, hmoves⟩ := l.exists_passed
  rw [hmoves, hrest, Ne, Ne, List.self_eq_append_left]

theorem reindented_ofText {text text' : String}
    (h : ScriptOutline.Reindented false text.toList text'.toList) :
    (ofText text).Reindented (ofText text') := by
  have heq : shebangLength text.toList = shebangLength text'.toList := by
    rw [shebangLength_eq, shebangLength_eq, h.firstLine_eq]
  refine ⟨?_, rfl⟩
  rw [cursor_ofText, cursor_ofText, Cursor.rest_move, Cursor.rest_move, ← heq]
  exact h.drop (shebangLength_le _)

end Lexer

theorem Pairing.abreast_reindented [IdentifierTable] : elsewhere.Abreast Lexer.Reindented where
  item h := (Lexer.reindented_next h).1
  next h := (Lexer.reindented_next h).2.1
  moves {l m} h := by
    rw [l.moves_iff_rest_ne, m.moves_iff_rest_ne]
    exact not_congr (Lexer.reindented_next h).2.2

namespace Pairing

/-- What one text gives and what the other gives, read off alike. -/
theorem map_eq_of_forall₂ {α β : Type} {f : α → β} {as bs : List α}
    (h : List.Forall₂ (fun a b => f a = f b) as bs) : as.map f = bs.map f := by
  induction h with
  | nil => rfl
  | cons hab _ ih => rw [List.map_cons, List.map_cons, hab, ih]

theorem Scans.same {s t : Scan} (h : elsewhere.Scans s t) :
    s.tokens.map Token.signs = t.tokens.map Token.signs ∧
      s.error.map (·.fault) = t.error.map (·.fault) := by
  obtain ⟨htokens, herror⟩ := h
  refine ⟨map_eq_of_forall₂ htokens, ?_⟩
  generalize s.error = d at herror
  generalize t.error = e at herror
  cases herror with
  | none => rfl
  | some hfault => exact congrArg some hfault

theorem Fails.same {d e : ReadError} (h : elsewhere.Fails d e) : d.fault.bare = e.fault.bare := by
  cases h with
  | lexical hfault => exact congrArg ReadFault.lexical hfault
  | here _ hcause => exact hcause

end Pairing

end ScriptOutline
