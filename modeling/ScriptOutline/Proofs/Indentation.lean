/-
The indentation of a printed script is cosmetic.

Printing writes indentation at the start of a line and nowhere else: `Piece.Laid` says so of
pieces, together with every word keeping to its line and not ending in a backslash, which
holds of whatever scanning gave.  Two indentations of such pieces are `Reindented`, and so
the tokens scanned from them are the same.
-/
import ScriptOutline.Proofs.Held
import ScriptOutline.Proofs.PrintedComments
import ScriptOutline.Proofs.Reemitting
import ScriptOutline.Proofs.Reindenting
import ScriptOutline.Proofs.Shape

namespace ScriptOutline

open Text

/-- Characters that take no line break in and do not end in a backslash. -/
structure Plain (cs : List Char) : Prop where
  inLine : ∀ c ∈ cs, isLineBreak c = false
  last : cs.getLast? ≠ some '\\'

instance (cs : List Char) : Decidable (Plain cs) :=
  decidable_of_iff (cs.all (!isLineBreak ·) = true ∧ cs.getLast? ≠ some '\\')
    ⟨fun h => ⟨by simpa using h.1, h.2⟩, fun h => ⟨by simpa using h.inLine, h.last⟩⟩

namespace Plain

theorem of_all {cs : List Char} (h : ∀ c ∈ cs, isLineBreak c = false ∧ c ≠ '\\') : Plain cs where
  inLine c hc := (h c hc).1
  last hlast := (h '\\' (List.mem_of_getLast? hlast)).2 rfl

theorem not_of_part [IdentifierTable] {c : Char} (h : isIdentifierPart c = true) :
    isLineBreak c = false ∧ c ≠ '\\' := by
  constructor
  · cases hb : isLineBreak c with
    | false => rfl
    | true =>
      rw [isIdentifierPart_of_isLineBreak hb] at h
      cases h
  · rintro rfl
    have hnot : isIdentifierPart '\\' = false := rfl
    rw [hnot] at h
    cases h

theorem not_of_number [IdentifierTable] {c : Char} (h : Literal.endsNumber c = false) :
    isLineBreak c = false ∧ c ≠ '\\' := by
  constructor
  · cases hb : isLineBreak c with
    | false => rfl
    | true =>
      rw [endsNumber_of_isLineBreak hb] at h
      cases h
  · rintro rfl
    have hends : Literal.endsNumber '\\' = true := rfl
    rw [hends] at h
    cases h

/-- A number that is read to its end holds nothing that would end it sooner. -/
theorem endsNumber_of_mem [IdentifierTable] {c : Char} {cs : List Char}
    (hstart : Literal.endsNumber c = false)
    (h : Literal.numberLength (c :: cs) = (c :: cs).length) {d : Char} (hd : d ∈ c :: cs) :
    Literal.endsNumber d = false := by
  cases hends : Literal.endsNumber d with
  | false => rfl
  | true =>
    obtain ⟨front, back, hsplit⟩ := List.append_of_mem hd
    have hfront : front ≠ [] := by
      rintro rfl
      rw [(List.cons.inj hsplit).1, hends] at hstart
      cases hstart
    have hback : ∀ e, (d :: back).head? = some e → Literal.endsNumber e = true := by
      intro e he
      cases he
      exact hends
    have hlength := Literal.numberLength_append hfront hback
    have hle := Literal.numberLength_le front
    rw [← hsplit, h, hsplit, List.length_append, List.length_cons] at hlength
    omega

theorem number {c : Char} {cs : List Char}
    (hstart : isDigit c = true ∨ c = '.' ∧ cs.head?.any isDigit = true)
    (h : Literal.numberLength (c :: cs) = (c :: cs).length) : Plain (c :: cs) := by
  have hends : Literal.endsNumber c = false := by
    cases hstart with
    | inl hdigit =>
      cases hends : Literal.endsNumber c with
      | false => rfl
      | true =>
        have hpart := Literal.isIdentifierPart_of_endsNumber hends
        rw [Literal.isDigit_of_not_part hpart] at hdigit
        cases hdigit
    | inr hpoint =>
      rw [hpoint.1]
      decide +kernel
  exact of_all fun d hd => not_of_number (endsNumber_of_mem hends h hd)

/-- The body of a regular expression ends with its slash. -/
theorem getLast?_regexpBody {bracketed : Bool} {cs : List Char}
    (h : (Literal.regexpBody bracketed cs).closed = true) :
    (cs.take (Literal.regexpBody bracketed cs).length).getLast? = some '/' := by
  fun_induction Literal.regexpBody bracketed cs with
  | case1 => cases h
  | case2 => cases h
  | case3 => cases h
  | case4 bracketed c cs hc ih =>
    simp only [Literal.Extent.behind, Nat.add_comm 2, List.take_succ_cons]
    rw [List.getLast?_cons, List.getLast?_cons, ih h]
    rfl
  | case5 => cases h
  | case6 bracketed c cs _ hne hb hc =>
    rw [Bool.and_eq_true, beq_iff_eq] at hc
    rw [hc.1]
    rfl
  | case7 bracketed c cs hnil hcons hb hc ih =>
    simp only [Literal.Extent.behind, Nat.add_comm 1, List.take_succ_cons]
    rw [List.getLast?_cons, ih h]
    rfl

theorem inLine_of_length_le {cs : List Char} (h : cs.length ≤ (firstLine cs).length) :
    ∀ c ∈ cs, isLineBreak c = false := by
  have heq : firstLine cs = cs := by
    have htake := take_firstLine h
    rwa [List.take_of_length_le (length_firstLine_le cs), List.take_length] at htake
  intro c hc
  rw [← heq] at hc
  exact isLineBreak_of_mem_firstLine hc

theorem regexp [IdentifierTable] {c : Char} {cs : List Char} (hc : isLineBreak c = false)
    (h : Literal.regexp (c :: cs) = { length := (c :: cs).length, closed := true }) :
    Plain (c :: cs) := by
  have hline : firstLine (c :: cs) ≠ [] := by
    rw [firstLine_cons hc]
    exact List.cons_ne_nil _ _
  have hle := Literal.regexp_length_le (firstLine (c :: cs))
  rw [Literal.regexp_firstLine hline, h] at hle
  refine ⟨inLine_of_length_le hle, ?_⟩
  simp only [Literal.regexp] at h
  by_cases hclosed : (Literal.regexpBody false cs).closed = true
  · rw [if_pos hclosed] at h
    have hlength := congrArg Literal.Extent.length h
    have hbody := getLast?_regexpBody hclosed
    generalize (Literal.regexpBody false cs).length = n at hlength hbody
    have hflags : ∀ d ∈ cs.drop n, isIdentifierPart d = true := by
      have hrun : (cs.drop n).length ≤ runLength isIdentifierPart (cs.drop n) := by
        rw [List.length_drop]
        simp only [List.length_cons] at hlength
        omega
      have hall := (le_runLength_iff.mp hrun).2
      rwa [List.take_length, List.all_eq_true] at hall
    intro hlast
    rw [List.getLast?_cons, ← List.take_append_drop n cs, List.getLast?_append, hbody] at hlast
    cases hend : (cs.drop n).getLast? with
    | none =>
      rw [hend] at hlast
      cases hlast
    | some d =>
      rw [hend] at hlast
      exact (not_of_part (hflags d (List.mem_of_getLast? hend))).2 (Option.some.inj hlast)
  · rw [if_neg hclosed] at h
    exact absurd (congrArg Literal.Extent.closed h) hclosed

/-- A quoted character is written as itself only where it is no line break. -/
theorem isLineBreak_of_mem_character {c d : Char} (h : d ∈ Quoted.character c) :
    isLineBreak d = false := by
  let P : List Char → Prop := fun q => q.all (!isLineBreak ·) = true
  have hall : P (Quoted.character c) := by
    cases hc : isLineBreak c with
    | true =>
      have hbreaks : ∀ e ∈ lineBreaks, (Quoted.character e).all (!isLineBreak ·) = true :=
        forall_mem_of_all (by decide)
      exact hbreaks c (mem_lineBreaks hc)
    | false =>
      unfold Quoted.character
      iterate 11 refine iteInduction (motive := P) (fun _ => rfl) (fun _ => ?_)
      refine iteInduction (motive := P) (fun hlow => ?_) (fun _ => ?_)
      · have hdigits : ∀ n < 0x20, P (['\\', 'x'] ++ Quoted.twoDigits n) := by decide
        exact hdigits c.toNat hlow
      · show [c].all (!isLineBreak ·) = true
        rw [List.all_cons, hc]
        rfl
  simpa using List.all_eq_true.mp hall d h

theorem quoted (value : String) : Plain (Text.quoted value).toList := by
  rw [Text.quoted, String.toList_ofList, Quoted.characters]
  refine ⟨fun d hd => ?_, ?_⟩
  · rw [List.mem_cons, List.mem_append, List.mem_singleton, List.mem_flatMap] at hd
    rcases hd with rfl | ⟨c, -, hd⟩ | rfl
    · rfl
    · exact isLineBreak_of_mem_character hd
    · rfl
  · intro hlast
    rw [List.getLast?_cons, List.getLast?_append] at hlast
    cases hlast

end Plain

/-- A token with a value that scanning gives tokens of its kind. -/
def Token.IsLexical [IdentifierTable] (t : Token) : Prop := Lexical t.kind t.value

theorem Token.plain_spelling [IdentifierTable] {t : Token} (h : t.IsLexical) :
    Plain (Printer.spelling t).toList := by
  by_cases hstring : t.kind = .string
  · have hspelling : Printer.spelling t = quoted t.value := by simp [Printer.spelling, hstring]
    rw [hspelling]
    exact .quoted _
  rw [spelling_of_ne hstring]
  unfold IsLexical at h
  generalize t.kind = kind at h hstring
  generalize t.value = value at h
  cases h with
  | word spelling start part =>
    rw [spelling]
    apply Plain.of_all
    intro d hd
    apply Plain.not_of_part
    cases hd with
    | head => exact isIdentifierPart_of_start start
    | tail _ hd => exact part d hd
  | point => exact .of_all (forall_mem_of_all (by decide))
  | @mark c hmark =>
    have hall : ∀ d ∈ punctuationMarks, isLineBreak d = false ∧ d ≠ '\\' :=
      forall_mem_of_all (by decide)
    rw [String.toList_ofList]
    apply Plain.of_all
    rw [List.forall_mem_singleton]
    exact hall c (mem_punctuationMarks hmark)
  | sign hmem =>
    have hall : ∀ d ∈ Text.signs, isLineBreak d = false ∧ d ≠ '\\' :=
      forall_mem_of_all (by decide)
    exact .of_all fun d hd => hall d (mem_signs hmem d hd)
  | string => exact absurd rfl hstring
  | @number _ c cs spelling start length =>
    rw [spelling] at length ⊢
    exact .number start length
  | regexp spelling body extent =>
    rw [spelling] at extent ⊢
    exact .regexp rfl extent
  | eof => exact .of_all (List.forall_mem_nil _)

theorem Token.plain_value [IdentifierTable] {t : Token} (h : t.IsLexical) (hkind : t.kind = .name) :
    Plain t.value.toList := by
  have hspelling := t.plain_spelling h
  rwa [spelling_of_ne (by simp [hkind])] at hspelling

namespace Reindented

variable {fresh : Bool} {as bs : List Char}

theorem anywhere (h : Reindented false as bs) : Reindented fresh as bs := by
  cases h with
  | nil => exact .nil
  | char inLine goesOn rest => exact .char inLine goesOn rest
  | newline rest => exact .newline rest

theorem plain {cs : List Char} (hcs : Plain cs) (h : Reindented false as bs) :
    Reindented fresh (cs ++ as) (cs ++ bs) := by
  obtain ⟨hline, hlast⟩ := hcs
  induction cs generalizing fresh with
  | nil => exact h.anywhere
  | cons c cs ih =>
    rw [List.forall_mem_cons] at hline
    refine .char hline.1 ?_ (ih hline.2 (Literal.getLast?_ne_of_suffix (List.suffix_cons c cs) hlast))
    rintro rfl
    cases cs with
    | nil => exact absurd rfl hlast
    | cons d cs => exact ⟨d, rfl, hline.2 d List.mem_cons_self⟩

theorem spaces_left {ws : List Char} (hws : ∀ c ∈ ws, isSpace c = true)
    (h : Reindented true as bs) : Reindented true (ws ++ as) bs := by
  induction ws with
  | nil => exact h
  | cons c ws ih =>
    rw [List.forall_mem_cons] at hws
    exact .left hws.1 (ih hws.2)

end Reindented

namespace Piece

/-- Words are plain, and indentation stands only at the start of a line, which `fresh` says
the first piece does.  No indentation at all may stand anywhere. -/
def Laid : Bool → List Piece → Prop
  | _, [] => True
  | _, word s :: ps => Plain s.toList ∧ Laid false ps
  | _, space :: ps => Laid false ps
  | _, newline :: ps => Laid true ps
  | fresh, indent level :: ps => (fresh = true ∨ level = 0) ∧ Laid fresh ps
  | _, comment _ :: _ => False

variable {fresh : Bool} {s : String} {level : Nat} {ps qs : List Piece}

/-- What may stand within a line may stand at its start. -/
theorem Laid.anywhere (h : Laid false ps) : Laid fresh ps := by
  induction ps with
  | nil => exact trivial
  | cons p ps ih =>
    cases p with
    | word | space | newline => exact h
    | comment => exact h.elim
    | indent level => exact ⟨.inr (h.1.resolve_left nofun), ih h.2⟩

theorem Laid.atStart (h : Laid fresh ps) : Laid true ps := by
  cases fresh with
  | true => exact h
  | false => exact h.anywhere

theorem Laid.append (hps : Laid fresh ps) (hqs : Laid false qs) : Laid fresh (ps ++ qs) := by
  induction ps generalizing fresh with
  | nil => exact hqs.anywhere
  | cons p ps ih =>
    cases p with
    | word => exact ⟨hps.1, ih hps.2⟩
    | space =>
      have hrest : Laid false ps := hps
      exact ih hrest
    | newline =>
      have hrest : Laid true ps := hps
      exact ih hrest
    | indent => exact ⟨hps.1, ih hps.2⟩
    | comment => exact hps.elim

/-- Two indentations of the same pieces. -/
theorem reindented_of_laid {i j : String} (hi : ∀ c ∈ i.toList, isSpace c = true)
    (hj : ∀ c ∈ j.toList, isSpace c = true) (h : Laid fresh ps) :
    Reindented fresh (chars i ps) (chars j ps) := by
  have hspaces {k : String} (hk : ∀ c ∈ k.toList, isSpace c = true) (level : Nat) :
      ∀ c ∈ (List.replicate level k.toList).flatten, isSpace c = true := by
    intro c hc
    obtain ⟨cs, hcs, hc⟩ := List.mem_flatten.mp hc
    rw [List.eq_of_mem_replicate hcs] at hc
    exact hk c hc
  induction ps generalizing fresh with
  | nil => exact .nil
  | cons p ps ih =>
    cases p with
    | word s =>
      rw [chars_word, chars_word]
      exact .plain h.1 (ih h.2)
    | space =>
      have hrest : Laid false ps := h
      rw [chars_space, chars_space]
      exact .char rfl nofun (ih hrest)
    | newline =>
      have hrest : Laid true ps := h
      rw [chars_newline, chars_newline]
      exact .newline (ih hrest)
    | comment => exact h.elim
    | indent level =>
      rw [chars_indent, chars_indent]
      obtain ⟨hfresh, hrest⟩ := h
      cases hfresh with
      | inl htrue =>
        subst htrue
        exact ((ih hrest).spaces_left (hspaces hi level)).symm.spaces_left (hspaces hj level) |>.symm
      | inr hzero =>
        subst hzero
        exact ih hrest

end Piece

/-! ## What is printed -/

namespace Printer

open Piece Node

variable {o : PrintOptions} {level : Nat} {fresh : Bool} {inner : List Piece}

theorem laid_bracket : Laid false [word ")"] := ⟨by decide, trivial⟩

theorem laid_semicolon : Laid false [word ";"] := ⟨by decide, trivial⟩

theorem laid_flatMap {α : Type} {f : α → List Piece} {as : List α}
    (h : ∀ a ∈ as, Laid false (f a)) : Laid false (as.flatMap f) := by
  induction as with
  | nil => exact trivial
  | cons a as ih =>
    rw [List.forall_mem_cons] at h
    rw [List.flatMap_cons]
    exact h.1.append (ih h.2)

theorem laid_gap (level : Nat) (last : Token) (next : Nat × Token) :
    Laid false (gap level last next) := by
  unfold gap
  split
  · exact ⟨.inl rfl, trivial⟩
  split
  · exact trivial
  · exact trivial

section

variable [IdentifierTable]

theorem laid_tokensAfter (level : Nat) (last : Token) {ts : List (Nat × Token)}
    (h : ∀ t ∈ ts, t.2.IsLexical) : Laid false (tokensAfter level last ts) := by
  induction ts generalizing last with
  | nil => exact trivial
  | cons t ts ih =>
    rw [List.forall_mem_cons] at h
    exact (laid_gap level last t).append ⟨t.2.plain_spelling h.1, ih t.2 h.2⟩

theorem laid_tokens (level : Nat) {ts : List (Nat × Token)}
    (h : ∀ t ∈ ts, t.2.IsLexical) :
    Laid false (tokens level ts) := by
  cases ts with
  | nil => exact trivial
  | cons t ts =>
    rw [List.forall_mem_cons] at h
    exact ⟨t.2.plain_spelling h.1, laid_tokensAfter level t.2 h.2⟩

theorem isLexical_leveledAll {ts : List TokenTree}
    (h : TokenTree.HoldsAll Token.IsLexical ts) :
    ∀ t ∈ leveledAll 0 ts, t.2.IsLexical := by
  intro t ht
  apply h
  rw [← leveledAll_tokens 0 ts]
  exact List.mem_map_of_mem ht

theorem laid_trees (level : Nat) {ts : List TokenTree}
    (h : TokenTree.HoldsAll Token.IsLexical ts) :
    Laid false (trees level ts) :=
  laid_tokens level (isLexical_leveledAll h)

theorem laid_construct (level : Nat) {keyword : Token}
    (hkeyword : keyword.IsLexical)
    {ts : List TokenTree} (h : TokenTree.HoldsAll Token.IsLexical ts) :
    Laid false (construct level keyword ts) :=
  laid_tokens level (List.forall_mem_cons.mpr ⟨hkeyword, isLexical_leveledAll h⟩)

theorem laid_tail (level : Nat) {t : Option (List TokenTree)}
    (h : ∀ ts ∈ t, TokenTree.HoldsAll Token.IsLexical ts) : Laid false (tail level t) := by
  match t, h with
  | none, _ => exact trivial
  | some [], _ => exact trivial
  | some (first :: rest), h =>
    have htrees := laid_trees level (h _ rfl)
    have hgap : Laid false (if first.first.isPunctuation "." then [] else [space]) := by
      split
      · exact trivial
      · exact trivial
    exact hgap.append htrees

theorem laid_segment {t : Token} (h : t.IsLexical) : Laid false (segment t) := by
  have hspelling := t.plain_spelling h
  unfold segment
  unfold spelling at hspelling
  split
  · rename_i hstring
    rw [if_pos hstring] at hspelling
    exact ⟨by decide, hspelling, by decide, trivial⟩
  · rename_i hstring
    rw [if_neg hstring] at hspelling
    exact ⟨by decide, hspelling, trivial⟩

theorem laid_path {p : SymbolPath} (h : p.Holds Token.IsLexical) : Laid false
    (path p) := by
  have hroot := p.root.plain_spelling (h p.root List.mem_cons_self)
  have hproperties : Laid false (p.properties.flatMap segment) :=
    laid_flatMap fun t ht => laid_segment (h t (List.mem_cons_of_mem _ ht))
  unfold path
  unfold spelling at hroot
  split
  · exact (laid_segment (h p.root List.mem_cons_self)).append hproperties
  · rename_i hstring
    rw [if_neg hstring] at hroot
    exact ⟨hroot, hproperties⟩

theorem laid_pathOrUnknown {p : Option SymbolPath}
    (h : ∀ q ∈ p, q.Holds Token.IsLexical) :
    Laid false (pathOrUnknown p) := by
  cases p with
  | none => exact ⟨by decide, by decide, by decide, by decide, trivial⟩
  | some p => exact laid_path (h p rfl)

end

theorem laid_commaList {items : List (List Piece)} (h : ∀ item ∈ items, Laid false item) :
    Laid false (commaList items) := by
  fun_induction commaList items with
  | case1 => exact trivial
  | case2 item => exact h item List.mem_cons_self
  | case3 item items _ ih =>
    rw [List.forall_mem_cons] at h
    exact h.1.append ⟨by decide, ih h.2⟩

theorem laid_functionHead [IdentifierTable] {head : FunctionHead} (hfits : head.Fits)
    (h : head.Holds Token.IsLexical) : Laid false (functionHead head) := by
  have hparameters : Laid false (commaList (head.parameters.map fun t => [word t.value])) := by
    apply laid_commaList
    intro item hitem
    obtain ⟨t, ht, rfl⟩ := List.mem_map.mp hitem
    exact ⟨t.plain_value (h.parameters t ht) (hfits.parameters t ht), trivial⟩
  have hclose : Laid false [word ")", space] := ⟨by decide, trivial⟩
  have hopen : Laid false [word "function", space] := ⟨by decide, trivial⟩
  have hlist : Laid false (word "(" :: commaList (head.parameters.map fun t => [word t.value])) :=
    ⟨by decide, hparameters⟩
  unfold functionHead
  refine ((hopen.append ?_).append hlist).append hclose
  cases hn : head.name with
  | named t => exact ⟨t.plain_value (h.name t hn) (hfits.name t hn), trivial⟩
  | anonymous n => exact trivial

theorem laid_lastComma (elements : List Node) : Laid false (lastComma elements) := by
  unfold lastComma
  split
  · split
    · exact ⟨by decide, trivial⟩
    · exact trivial
  · exact trivial

/-- Behind statements, which end their lines, may stand what may begin a line. -/
theorem laid_braced (level : Nat) (h : ∀ qs, Laid true qs → Laid true (inner ++ qs)) :
    Laid false (braced level inner) := by
  have hclose : Laid true [indent level, word "\x7d"] := ⟨.inl rfl, by decide, trivial⟩
  unfold braced
  split
  · exact ⟨by decide, by decide, trivial⟩
  · exact ⟨by decide, h _ hclose⟩

theorem laid_statement (n : Node) (h : Laid false inner) : Laid false (statement n inner) := by
  have hsemicolon : Laid false (inner ++ [word ";"]) := h.append laid_semicolon
  have hbracket : Laid false (inner ++ [word ")", word ";"]) :=
    h.append ⟨by decide, laid_semicolon⟩
  cases n with
  | block | skipped => exact h
  | declaration _ w _ =>
    have hword : Plain w.text.toList := by cases w <;> decide
    exact ⟨hword, hsemicolon⟩
  | function => exact ⟨by decide, hbracket⟩
  | _ => exact hsemicolon

theorem laid_initialized (w : DeclarationWord) {name : Token} (hname : Plain name.value.toList)
    (value : Node) (h : Laid false inner) : Laid false (initialized w name value inner) := by
  have hword : Plain w.text.toList := by cases w <;> decide
  have hplain : Laid false ([word w.text, space, word name.value, space, word "=", space] ++ inner ++
      [word ";"]) := by
    have hfront : Laid false [word w.text, space, word name.value, space, word "=", space] :=
      ⟨hword, hname, by decide, trivial⟩
    exact (hfront.append h).append laid_semicolon
  cases value with
  | function c head body =>
    rw [initialized]
    split
    · exact h
    · exact hplain
  | _ => exact hplain

theorem laid_assigned [IdentifierTable] {target : SymbolPath}
    (htarget : target.Holds Token.IsLexical)
    {operator : String} (hoperator : operator ∈ Token.assignmentOperators) (h : Laid false inner) :
    Laid false (assigned target operator inner) := by
  have hall : ∀ s ∈ Token.assignmentOperators, Plain s.toList := by decide
  exact (laid_path htarget).append ⟨hall operator hoperator, h⟩

/-- A line may be printed wherever its indentation may stand, and another line behind it. -/
theorem laid_line (ho : o.comments = false) (hfresh : fresh = true ∨ level = 0)
    (c : List Comment) (h : Laid false inner) {qs : List Piece} (hqs : Laid true qs) :
    Laid fresh (line o level c inner ++ qs) := by
  have hleading : leading o level c = [] := by simp [leading, ho]
  have hbehind : Laid false (newline :: qs) := hqs
  rw [line, hleading, List.nil_append, List.cons_append, List.cons_append, List.append_assoc]
  exact ⟨hfresh, h.anywhere.append hbehind⟩

/-- Items between round brackets, behind what calls them. -/
theorem laid_arguments {callee : List Piece} (hcallee : Laid false callee)
    {items : List (List Piece)} (h : ∀ item ∈ items, Laid false item) :
    Laid false (callee ++ word "(" :: commaList items ++ [word ")"]) := by
  have hitems : Laid false (word "(" :: commaList items) :=
    ⟨by decide, laid_commaList h⟩
  exact (hcallee.append hitems).append laid_bracket

mutual
/-- What a node is printed as keeps to the layout wherever it stands, by induction on the
node: `Shaped` says which tokens its names and operators are, `Holds` that they are plain. -/
theorem laid_expression [IdentifierTable] (ho : o.comments = false) (level : Nat) {role : Role}
    {n : Node}
    (hshaped : n.Shaped role) (h : n.Holds Token.IsLexical) : Laid false (expression o level n) := by
  cases n with
  | block c body => exact laid_braced level (laid_statements ho hshaped.2 h (.inl rfl))
  | declaration c w name => exact ⟨name.plain_value h hshaped.2, trivial⟩
  | assignment c target operator value =>
    exact laid_assigned h.1 hshaped.2.2.1 (laid_expression ho level hshaped.2.2.2 h.2)
  | function c head body =>
    have hbody : Laid false (braced level (statements o (level + 1) body)) :=
      laid_braced level (laid_statements ho hshaped.2.2 h.2 (.inl rfl))
    exact (laid_functionHead hshaped.2.1 h.1).append hbody
  | returnNothing c => exact ⟨by decide, trivial⟩
  | returnValue c value => exact ⟨by decide, laid_expression ho level hshaped.2 h⟩
  | call c callee arguments =>
    exact laid_arguments (laid_path h.1) (laid_expressions ho level hshaped.2.2 h.2)
  | reference c p t => exact (laid_pathOrUnknown h.1).append (laid_tail level h.2)
  | invocation c p arguments chain t =>
    obtain ⟨hpath, harguments, hchain, htail⟩ := h
    have hlinks : Laid false ((expressions o level chain).flatMap (word "." :: ·)) :=
      laid_flatMap fun item hitem =>
        ⟨by decide, laid_expressions ho level hshaped.2.2.1 hchain item hitem⟩
    have hcall := laid_arguments (laid_pathOrUnknown hpath)
      (laid_expressions ho level hshaped.2.1 harguments)
    exact (hcall.append hlinks).append (laid_tail level htail)
  | instantiation c value => exact ⟨by decide, laid_expression ho level hshaped.2 h⟩
  | array c elements =>
    have hitems : Laid false (word "[" :: commaList (expressions o level elements)) :=
      ⟨by decide, laid_commaList (laid_expressions ho level hshaped.2 h)⟩
    exact (hitems.append (laid_lastComma elements)).append ⟨by decide, trivial⟩
  | object c ts => exact laid_trees level h
  | primitive c kind t =>
    have hspelling : spelling t = if kind == .string then quoted t.value else t.value := by
      have hfits := hshaped.2
      cases kind <;> simp_all [PrimitiveKind.Fits, spelling]
    have hplain := t.plain_spelling h
    rw [hspelling] at hplain
    exact ⟨hplain, trivial⟩
  | expression c ts => exact laid_trees level h
  | immediate c head body arguments =>
    obtain ⟨hhead, hbody, harguments⟩ := h
    have hfunction : Laid false (word "(" :: functionHead head) :=
      ⟨by decide, laid_functionHead hshaped.2.1 hhead⟩
    have hbraces : Laid false (braced level (statements o (level + 1) body)) :=
      laid_braced level (laid_statements ho hshaped.2.2.1 hbody (.inl rfl))
    have hopen : Laid false [word ")", word "("] := ⟨by decide, by decide, trivial⟩
    have hlist := laid_commaList (laid_expressions ho level hshaped.2.2.2 harguments)
    exact (((hfunction.append hbraces).append hopen).append hlist).append laid_bracket
  | skipped c keyword ts => exact laid_construct level h.1 h.2

theorem laid_statements [IdentifierTable] (ho : o.comments = false) {ns : List Node}
    (hshaped : ShapedAll .statement ns) (h : HoldsAll Token.IsLexical ns) {fresh : Bool}
    {level : Nat} (hfresh : fresh = true ∨ level = 0) (qs : List Piece) (hqs : Laid fresh qs) :
    Laid fresh (statements o level ns ++ qs) := by
  cases ns with
  | nil => exact hqs
  | cons n rest =>
    by_cases hsingle : ∀ a ∈ rest.head?, n.initializedBy a = false
    · have hrest : Laid true (statements o level rest ++ qs) :=
        laid_statements ho hshaped.2 h.2 (.inl rfl) qs hqs.atStart
      have hn := laid_statement n (laid_expression ho level hshaped.1 h.1)
      rw [statements_single hsingle, List.append_assoc]
      exact laid_line ho hfresh n.comments hn hrest
    · cases rest with
      | nil => exact absurd nofun hsingle
      | cons a rest =>
        have hjoin : n.initializedBy a = true := by simpa using hsingle
        have hrest : Laid true (statements o level rest ++ qs) :=
          laid_statements ho hshaped.2.2 h.2.2 (.inl rfl) qs hqs.atStart
        rw [statements_joined hjoin, List.append_assoc]
        cases n with
        | declaration c w name =>
          cases a with
          | assignment c' target operator value =>
            have hvalue := laid_expression ho level hshaped.2.1.2.2.2 h.2.1.2
            have hname := name.plain_value h.1 hshaped.1.2
            exact laid_line ho hfresh c (laid_initialized w hname value hvalue) hrest
          | _ => cases hjoin
        | _ => cases hjoin

theorem laid_expressions [IdentifierTable] (ho : o.comments = false) (level : Nat) {role : Role}
    {ns : List Node} (hshaped : ShapedAll role ns) (h : HoldsAll Token.IsLexical ns) :
    ∀ item ∈ expressions o level ns, Laid false item := by
  cases ns with
  | nil => exact List.forall_mem_nil _
  | cons n ns =>
    exact List.forall_mem_cons.mpr
      ⟨laid_expression ho level hshaped.1 h.1, laid_expressions ho level hshaped.2 h.2⟩
end

theorem line_congr {o' : PrintOptions} (ho : o.comments = o'.comments) (level : Nat)
    (c : List Comment) (inner : List Piece) : line o level c inner = line o' level c inner := by
  rw [line, line, leading, leading, ho]

mutual
/-- Only the option for comments decides what the pieces are. -/
theorem expression_congr {o' : PrintOptions} (ho : o.comments = o'.comments) (level : Nat)
    (n : Node) : expression o level n = expression o' level n := by
  cases n with
  | block c body | function c head body => simp only [expression, statements_congr ho]
  | assignment c target operator value => simp only [expression, expression_congr ho]
  | returnValue c value | instantiation c value => simp only [expression, expression_congr ho]
  | call c callee arguments => simp only [expression, expressions_congr ho]
  | invocation c p arguments chain t => simp only [expression, expressions_congr ho]
  | array c elements => simp only [expression, expressions_congr ho]
  | immediate c head body arguments =>
    simp only [expression, statements_congr ho, expressions_congr ho]
  | _ => simp only [expression]

theorem statements_congr {o' : PrintOptions} (ho : o.comments = o'.comments) (level : Nat)
    (ns : List Node) : statements o level ns = statements o' level ns := by
  cases ns with
  | nil => rfl
  | cons n rest =>
    by_cases hsingle : ∀ a ∈ rest.head?, n.initializedBy a = false
    · rw [statements_single hsingle, statements_single hsingle, expression_congr ho, line_congr ho,
        statements_congr ho level rest]
    · cases rest with
      | nil => exact absurd nofun hsingle
      | cons a rest =>
        have hjoin : n.initializedBy a = true := by simpa using hsingle
        rw [statements_joined hjoin, statements_joined hjoin, line_congr ho,
          statements_congr ho level rest]
        cases n with
        | declaration c w name =>
          cases a with
          | assignment c' target operator value => rw [joined, joined, expression_congr ho]
          | _ => cases hjoin
        | _ => cases hjoin

theorem expressions_congr {o' : PrintOptions} (ho : o.comments = o'.comments) (level : Nat)
    (ns : List Node) : expressions o level ns = expressions o' level ns := by
  cases ns with
  | nil => rfl
  | cons n ns => rw [expressions, expressions, expression_congr ho, expressions_congr ho level ns]
end

end Printer

/-- Scanning supplies tokens with values of their kinds. -/
theorem TokenStream.supplies_lexed [IdentifierTable] : Supplies Lexed Token.IsLexical where
  upheld := upheld_lexed
  current hs ht := hs.current _ ht
  peeked hs ht := (hs.peeked _ ht).1

namespace Script

theorem reindented_print [IdentifierTable] {text : String} {s : Script} (h : ofText text = .ok s)
    {o o' : PrintOptions} (ho : o.comments = false) (ho' : o'.comments = false)
    (hi : ∀ c ∈ o.indent.toList, isSpace c = true)
    (hi' : ∀ c ∈ o'.indent.toList, isSpace c = true) :
    Reindented false (s.print o).toList (s.print o').toList := by
  have hshaped := shaped_ofFeed h
  have hheld : Node.HoldsAll Token.IsLexical s.body :=
    holds_ofFeed TokenStream.supplies_lexed (TokenStream.lexed_ofFeed _) h
  have hlaid : Piece.Laid false (Printer.statements o 0 s.body ++ []) :=
    Printer.laid_statements ho hshaped hheld (.inr rfl) [] trivial
  rw [List.append_nil] at hlaid
  rw [print, print, Node.printAll, Node.printAll,
    Printer.statements_congr (ho'.trans ho.symm) 0 s.body, Piece.toList_render,
    Piece.toList_render]
  exact Piece.reindented_of_laid hi hi' hlaid

/-- Whatever white space a script read from a text is indented with, the tokens that are
scanned from what is printed without comments are the same, or end at the same fault, and
what is read from it says the same, or reading fails for the same cause. -/
theorem indentation_cosmetic [IdentifierTable] {text : String} {s : Script}
    (h : ofText text = .ok s) {i j : String}
    (hi : ∀ c ∈ i.toList, isSpace c = true) (hj : ∀ c ∈ j.toList, isSpace c = true) :
    let first := s.print { comments := false, indent := i }
    let second := s.print { comments := false, indent := j }
    (Scan.ofText first).tokens.map Token.signs = (Scan.ofText second).tokens.map Token.signs ∧
    (Scan.ofText first).error.map (·.fault) = (Scan.ofText second).error.map (·.fault) ∧
    match ofText first, ofText second with
    | .ok a, .ok b => Node.alikeAll a.body b.body = true ∧
        a.warnings.map (·.cause) = b.warnings.map (·.cause)
    | .error d, .error e => d.fault.bare = e.fault.bare
    | _, _ => False := by
  intro first second
  have hlexers : (Lexer.ofText first).Reindented (.ofText second) :=
    Lexer.reindented_ofText (reindented_print h rfl rfl hi hj)
  have hfeeds := Pairing.abreast_reindented.feeds hlexers
  obtain ⟨hitems, hfinal⟩ := Pairing.abreast_reindented.feed _ _ hlexers
  obtain ⟨htokens, herror⟩ := (Pairing.scans_ofItems hfinal hitems).same
  refine ⟨htokens, herror, ?_⟩
  rcases ofFeed_whole (fun _ => id) hfeeds with
    ⟨a, b, ha, hb, hbody, hwarnings⟩ | ⟨d, e, hd, he, hfails⟩
  · rw [show ofText first = .ok a from ha, show ofText second = .ok b from hb]
    have hcauses : List.Forall₂ (fun v w : Warning => v.cause = w.cause) a.warnings b.warnings :=
      hwarnings.imp fun _ _ hwarned => hwarned.1
    exact ⟨Node.alikeAll_of_bareAll_eq _ _ hbody, Pairing.map_eq_of_forall₂ hcauses⟩
  · rw [show ofText first = .error d from hd, show ofText second = .error e from he]
    exact hfails.same

/-- Braces of a function and of a construct, and a string that holds a backslash. -/
theorem indentation_cosmetic_nested :
    ∃ s, ofText "function f(a) \x7b\n  if (a) \x7b\n    g('\\\\');\n  \x7d\n\x7d\n" = .ok s ∧
      s.print { comments := false, indent := "\t" } ≠
        s.print { comments := false, indent := "\r\n " } ∧
      (∀ c ∈ "\t".toList, isSpace c = true) ∧ (∀ c ∈ "\r\n ".toList, isSpace c = true) ∧
      (Scan.ofText (s.print { comments := false, indent := "\t" })).tokens.map Token.signs =
        (Scan.ofText (s.print { comments := false, indent := "\r\n " })).tokens.map Token.signs := by
  have hprints : (ofText "function f(a) \x7b\n  if (a) \x7b\n    g('\\\\');\n  \x7d\n\x7d\n").toOption.any
      (fun s => s.print { comments := false, indent := "\t" } !=
        s.print { comments := false, indent := "\r\n " }) = true := by decide +kernel
  have hi : ∀ c ∈ "\t".toList, isSpace c = true := forall_mem_of_all (by decide)
  have hj : ∀ c ∈ "\r\n ".toList, isSpace c = true := forall_mem_of_all (by decide)
  obtain ⟨s, hs, hne⟩ := exists_of_any hprints
  exact ⟨s, hs, by simpa using hne, hi, hj, (indentation_cosmetic hs hi hj).1⟩

end Script

end ScriptOutline
