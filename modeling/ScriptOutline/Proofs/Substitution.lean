/-
Filling a template, against putting all arguments in at once.

`Message.fill` goes through the arguments one by one and looks for the place of each in what the
arguments before it have made of the template.  `substitute` reads the template once, so that
nothing an argument brings along is ever a place.  The two agree on all arguments exactly where no
place but the one of the last argument stands in the template; for the wordings of the catalogue
they agree wherever no argument has an opening brace.

The proof keeps the template in its marks: every round writes the same marks, with a new text for
some of the places, as long as the letters between them do not come to begin a place.
-/
import ScriptOutline.Diagnostic.Message
import Mathlib.Data.List.Infix

namespace ScriptOutline
namespace Message

theorem isDigit_of_mem_toDigits {i : Nat} {c : Char} (h : c ∈ Nat.toDigits 10 i) :
    c.isDigit = true :=
  Nat.isDigit_of_mem_toDigits (by decide) (by decide) h

theorem closing_notMem_toDigits (i : Nat) : '\x7d' ∉ Nat.toDigits 10 i := by
  intro h
  have := isDigit_of_mem_toDigits h
  contradiction

theorem opening_notMem_tail_placeholder (i : Nat) :
    '\x7b' ∉ Nat.toDigits 10 i ++ ['\x7d'] := by
  intro h
  rw [List.mem_append, List.mem_singleton] at h
  cases h with
  | inl h =>
    have := isDigit_of_mem_toDigits h
    contradiction
  | inr h => contradiction

theorem placeholder_injective {i j : Nat} (h : placeholder i = placeholder j) : i = j := by
  have hdigits : Nat.toDigits 10 i = Nat.toDigits 10 j := by
    simpa [placeholder] using h
  simpa [Nat.ofDigitChars_ten_toDigits] using congrArg (Nat.ofDigitChars 10 · 0) hdigits

/-- The closing brace ends the number, so a text begins with one place at most. -/
theorem placeholder_prefix_unique {i j : Nat} {text : List Char}
    (hi : placeholder i <+: text) (hj : placeholder j <+: text) : i = j := by
  obtain ⟨s, rfl⟩ := hi
  obtain ⟨t, h⟩ := hj
  have cut (k : Nat) (s : List Char) : (placeholder k ++ s).takeWhile (· != '\x7d') =
      '\x7b' :: Nat.toDigits 10 k := by
    have hclosing : ∀ c ∈ '\x7b' :: Nat.toDigits 10 k, (c != '\x7d') = true := by
      intro c hc
      have := closing_notMem_toDigits k
      grind
    have hshape : placeholder k ++ s = ('\x7b' :: Nat.toDigits 10 k) ++ '\x7d' :: s := by
      simp [placeholder]
    rw [hshape, List.takeWhile_append_of_pos hclosing]
    simp
  have heq := congrArg (List.takeWhile (· != '\x7d')) h
  rw [cut, cut] at heq
  apply placeholder_injective
  rw [placeholder, placeholder, (List.cons.inj heq).2]

theorem placeholder_prefix_append {i j : Nat} {s : List Char} :
    placeholder i <+: placeholder j ++ s ↔ i = j := by
  constructor
  · intro h
    exact placeholder_prefix_unique h (List.prefix_append _ _)
  · rintro rfl
    exact List.prefix_append _ _

theorem not_placeholder_prefix_cons {i : Nat} {c : Char} {s : List Char} (h : c ≠ '\x7b') :
    ¬ placeholder i <+: c :: s := by
  rw [placeholder, List.cons_prefix_cons]
  exact fun hp => h hp.1.symm

theorem cons_eq_placeholder_append {i : Nat} {c : Char} {cs : List Char}
    (h : placeholder i <+: c :: cs) :
    c :: cs = placeholder i ++ cs.drop ((placeholder i).length - 1) := by
  obtain ⟨s, hs⟩ := h
  rw [← hs, List.append_cancel_left_eq]
  have := congrArg (List.drop (placeholder i).length) hs
  rw [List.drop_left] at this
  exact this

/-- A place never begins inside a text without an opening brace. -/
theorem placeholder_infix_append {i : Nat} {s t : List Char} (hs : '\x7b' ∉ s)
    (h : placeholder i <:+: s ++ t) : placeholder i <:+: t := by
  induction s with
  | nil => exact h
  | cons c s ih =>
    rw [List.mem_cons, not_or] at hs
    rw [List.cons_append, List.infix_cons_iff] at h
    cases h with
    | inl h => exact absurd h (not_placeholder_prefix_cons (Ne.symm hs.1))
    | inr h => exact ih hs.2 h

theorem replaceAll_cons {pattern value : List Char} {c : Char} {cs : List Char}
    (h : ¬ pattern <+: c :: cs) :
    replaceAll pattern value (c :: cs) = c :: replaceAll pattern value cs := by
  rw [replaceAll, if_neg]
  rwa [List.isPrefixOf_iff_prefix]

theorem replaceAll_of_not_infix {pattern value text : List Char} (h : ¬ pattern <:+: text) :
    replaceAll pattern value text = text := by
  induction text with
  | nil => rw [replaceAll]
  | cons c cs ih =>
    rw [List.infix_cons_iff, not_or] at h
    rw [replaceAll_cons h.1, ih h.2]

section Place

variable {k : Nat} {v : List Char}

theorem replaceAll_placeholder_append (s : List Char) :
    replaceAll (placeholder k) v (placeholder k ++ s) =
      v ++ replaceAll (placeholder k) v s := by
  have h : placeholder k <+: placeholder k ++ s := List.prefix_append _ _
  rw [placeholder, List.cons_append] at h ⊢
  rw [replaceAll, if_pos (List.isPrefixOf_iff_prefix.mpr h)]
  congr 2
  rw [List.length_cons, Nat.add_sub_cancel, List.drop_left]

theorem replaceAll_append_of_notMem {s : List Char} (hs : '\x7b' ∉ s) (t : List Char) :
    replaceAll (placeholder k) v (s ++ t) = s ++ replaceAll (placeholder k) v t := by
  induction s with
  | nil => rfl
  | cons c s ih =>
    rw [List.mem_cons, not_or] at hs
    rw [List.cons_append, replaceAll_cons (not_placeholder_prefix_cons (Ne.symm hs.1)), ih hs.2,
      List.cons_append]

theorem replaceAll_other_append {j : Nat} (h : k ≠ j) (s : List Char) :
    replaceAll (placeholder k) v (placeholder j ++ s) =
      placeholder j ++ replaceAll (placeholder k) v s := by
  have hbegins : ¬ placeholder k <+: placeholder j ++ s := fun hp =>
    h (placeholder_prefix_append.mp hp)
  rw [placeholder.eq_1 j, List.cons_append] at hbegins ⊢
  rw [replaceAll_cons hbegins, replaceAll_append_of_notMem (opening_notMem_tail_placeholder j),
    List.cons_append]

theorem replaceAll_nil : replaceAll (placeholder k) v [] = [] := by
  rw [replaceAll]

theorem replaceAll_of_notMem {s : List Char} (hs : '\x7b' ∉ s) :
    replaceAll (placeholder k) v s = s := by
  have h := replaceAll_append_of_notMem (k := k) (v := v) hs []
  rwa [List.append_nil, replaceAll_nil, List.append_nil] at h

theorem replaceAll_placeholder (j : Nat) :
    replaceAll (placeholder k) v (placeholder j) = if k = j then v else placeholder j := by
  by_cases h : k = j
  · subst h
    have h := replaceAll_placeholder_append (k := k) (v := v) []
    rw [List.append_nil, replaceAll_nil, List.append_nil] at h
    rw [h, if_pos rfl]
  · have hother := replaceAll_other_append (v := v) h []
    rw [List.append_nil, replaceAll_nil, List.append_nil] at hother
    rw [hother, if_neg h]

/-- A text that one round meets as a whole: it is a place or has none. -/
def Whole (s : List Char) : Prop := (∃ j, s = placeholder j) ∨ '\x7b' ∉ s

theorem Whole.replaceAll_append {s : List Char} (hs : Whole s) (t : List Char) :
    replaceAll (placeholder k) value (s ++ t) =
      replaceAll (placeholder k) value s ++ replaceAll (placeholder k) value t := by
  obtain ⟨j, rfl⟩ | hs := hs
  · rw [replaceAll_placeholder]
    by_cases h : k = j
    · subst h
      rw [if_pos rfl, replaceAll_placeholder_append]
    · rw [if_neg h, replaceAll_other_append h]
  · rw [replaceAll_append_of_notMem hs, replaceAll_of_notMem hs]

theorem Whole.replaceAll_cases {s : List Char} (hs : Whole s) :
    replaceAll (placeholder k) value s = value ∨ replaceAll (placeholder k) value s = s := by
  obtain ⟨j, rfl⟩ | hs := hs
  · rw [replaceAll_placeholder]
    by_cases h : k = j
    · exact .inl (if_pos h)
    · exact .inr (if_neg h)
  · exact .inr (replaceAll_of_notMem hs)

end Place

theorem fillFrom_append (k : Nat) (text : List Char) (first second : List String) :
    fillFrom k text (first ++ second) =
      fillFrom (k + first.length) (fillFrom k text first) second := by
  induction first generalizing k text with
  | nil => rfl
  | cons a first ih =>
    rw [List.cons_append, fillFrom, ih, fillFrom, List.length_cons]
    congr 1
    omega

theorem fillFrom_of_not_infix {k : Nat} {text : List Char} {arguments : List String}
    (h : ∀ i, k ≤ i → i < k + arguments.length → ¬ placeholder i <:+: text) :
    fillFrom k text arguments = text := by
  induction arguments generalizing k with
  | nil => rfl
  | cons a arguments ih =>
    rw [List.length_cons] at h
    rw [fillFrom, replaceAll_of_not_infix (h k (by omega) (by omega))]
    exact ih fun i hk hi => h i (by omega) (by omega)

theorem fillFrom_of_notMem {k : Nat} {text : List Char} {arguments : List String}
    (h : '\x7b' ∉ text) : fillFrom k text arguments = text := by
  apply fillFrom_of_not_infix
  intro i _ _ hi
  exact h (hi.subset (by simp [placeholder]))

/-- A place waits for its argument, which then goes through the rounds that are left. -/
theorem fillFrom_placeholder {k i : Nat} {arguments : List String} (hk : k ≤ i)
    (hi : i < k + arguments.length) :
    fillFrom k (placeholder i) arguments =
      fillFrom (i + 1) (arguments.getD (i - k) "").toList (arguments.drop (i - k + 1)) := by
  induction arguments generalizing k with
  | nil =>
    rw [List.length_nil] at hi
    omega
  | cons a arguments ih =>
    rw [List.length_cons] at hi
    rw [fillFrom, replaceAll_placeholder]
    by_cases h : k = i
    · subst h
      rw [if_pos rfl, Nat.sub_self]
      rfl
    · have hsub : i - k = i - (k + 1) + 1 := by omega
      rw [if_neg h, ih (by omega) (by omega), hsub]
      rfl

/-! ## The marks of a template -/

/-- What one reading of a template finds: its places, and the letters that belong to none. -/
inductive Mark where
  | letter (c : Char)
  | place (i : Nat)
deriving DecidableEq, Repr

/-- The number of the place that the text begins with, if it is below `n`. -/
def placeAt (n : Nat) (text : List Char) : Option Nat :=
  (List.range n).find? fun i => (placeholder i).isPrefixOf text

/-- One reading of a template, from the left and without overlap, for the places below `n`. -/
def marks (n : Nat) : List Char → List Mark
  | [] => []
  | c :: cs =>
    match placeAt n (c :: cs) with
    | some i => .place i :: marks n (cs.drop ((placeholder i).length - 1))
    | none => .letter c :: marks n cs
termination_by text => text.length
decreasing_by
  all_goals simp only [List.length_cons, List.length_drop]
  all_goals omega

/-- The text of the marks, where place `i` is written as `texts i`. -/
def written (texts : Nat → List Char) : List Mark → List Char
  | [] => []
  | .letter c :: rest => c :: written texts rest
  | .place i :: rest => texts i ++ written texts rest

/-- Every place of the template gives way to its argument, all of them at once. -/
def substitute (arguments : List String) (template : List Char) : List Char :=
  written (fun i => (arguments.getD i "").toList) (marks arguments.length template)

section Marks

variable {n : Nat} {text : List Char} {texts : Nat → List Char} {found : List Mark}

theorem placeAt_some {i : Nat} (h : placeAt n text = some i) :
    i < n ∧ placeholder i <+: text := by
  have hmem := List.mem_of_find?_eq_some h
  have hbegins := List.find?_some h
  rw [List.mem_range] at hmem
  rw [List.isPrefixOf_iff_prefix] at hbegins
  exact ⟨hmem, hbegins⟩

theorem placeAt_none (h : placeAt n text = none) {i : Nat} (hi : i < n) :
    ¬ placeholder i <+: text := by
  rw [placeAt, List.find?_eq_none] at h
  have := h i (List.mem_range.mpr hi)
  rwa [List.isPrefixOf_iff_prefix] at this

theorem written_append (first second : List Mark) :
    written texts (first ++ second) = written texts first ++ written texts second := by
  induction first with
  | nil => rfl
  | cons m first ih => cases m <;> simp [written, ih]

theorem written_letters (s : List Char) : written texts (s.map .letter) = s := by
  induction s with
  | nil => rfl
  | cons c s ih => rw [List.map_cons, written, ih]

theorem written_congr {others : Nat → List Char}
    (h : ∀ i, .place i ∈ found → texts i = others i) : written texts found = written others found := by
  induction found with
  | nil => rfl
  | cons m found ih =>
    have hrest := ih fun i hi => h i (List.mem_cons_of_mem _ hi)
    cases m with
    | letter c => rw [written, written, hrest]
    | place i => rw [written, written, hrest, h i (List.mem_cons_self ..)]

theorem written_length_le {others : Nat → List Char}
    (h : ∀ i, (texts i).length ≤ (others i).length) :
    (written texts found).length ≤ (written others found).length := by
  induction found with
  | nil => exact Nat.le_refl _
  | cons m found ih =>
    cases m with
    | letter c =>
      rw [written, written, List.length_cons, List.length_cons]
      omega
    | place i =>
      rw [written, written, List.length_append, List.length_append]
      have := h i
      omega

theorem written_length_lt {others : Nat → List Char} {i : Nat} (hi : .place i ∈ found)
    (hlt : (texts i).length < (others i).length)
    (h : ∀ i, (texts i).length ≤ (others i).length) :
    (written texts found).length < (written others found).length := by
  obtain ⟨s, t, rfl⟩ := List.append_of_mem hi
  have hs : (written texts s).length ≤ (written others s).length := written_length_le h
  have ht : (written texts t).length ≤ (written others t).length := written_length_le h
  rw [written_append, written_append, written, written]
  simp only [List.length_append]
  omega

theorem placeholder_infix_written {i : Nat} (h : .place i ∈ found) :
    placeholder i <:+: written placeholder found := by
  obtain ⟨s, t, rfl⟩ := List.append_of_mem h
  rw [written_append, written]
  exact ⟨_, _, List.append_assoc ..⟩

/-- Reading loses nothing. -/
theorem written_marks : written placeholder (marks n text) = text := by
  fun_induction marks n text with
  | case1 => rfl
  | case2 c cs i hplace ih =>
    rw [written, ih, ← cons_eq_placeholder_append (placeAt_some hplace).2]
  | case3 c cs hplace ih => rw [written, ih]

theorem lt_of_place_mem {i : Nat} (h : .place i ∈ marks n text) : i < n := by
  fun_induction marks n text with
  | case1 => contradiction
  | case2 c cs j hplace ih =>
    rw [List.mem_cons, Mark.place.injEq] at h
    cases h with
    | inl h => exact h ▸ (placeAt_some hplace).1
    | inr h => exact ih h
  | case3 c cs hplace ih =>
    rw [List.mem_cons] at h
    cases h with
    | inl h => contradiction
    | inr h => exact ih h

/-- Reading finds every place, also where other texts stand around it. -/
theorem place_mem_marks {i : Nat} (hi : i < n) (h : placeholder i <:+: text) :
    .place i ∈ marks n text := by
  fun_induction marks n text with
  | case1 =>
    rw [List.infix_nil] at h
    contradiction
  | case2 c cs j hplace ih =>
    have hj := (placeAt_some hplace).2
    have heq := cons_eq_placeholder_append hj
    rw [List.infix_cons_iff] at h
    cases h with
    | inl h =>
      rw [placeholder_prefix_unique h hj]
      exact List.mem_cons_self ..
    | inr h =>
      have hcs : cs = (Nat.toDigits 10 j ++ ['\x7d']) ++
          cs.drop ((placeholder j).length - 1) := (List.cons.inj heq).2
      rw [hcs] at h
      exact List.mem_cons_of_mem _ (ih (placeholder_infix_append
        (opening_notMem_tail_placeholder j) h))
  | case3 c cs hplace ih =>
    rw [List.infix_cons_iff] at h
    cases h with
    | inl h => exact absurd h (placeAt_none hplace hi)
    | inr h => exact List.mem_cons_of_mem _ (ih h)

theorem letters_prefix {s : List Char} (h : s.map .letter <+: found) :
    s <+: written texts found := by
  obtain ⟨rest, rfl⟩ := h
  rw [written_append, written_letters]
  exact List.prefix_append _ _

/-- The letters that are left over spell no place. -/
theorem not_letters_infix_marks {i : Nat} (hi : i < n) :
    ¬ (placeholder i).map .letter <:+: marks n text := by
  fun_induction marks n text with
  | case1 =>
    rw [List.infix_nil]
    exact List.cons_ne_nil _ _
  | case2 c cs j hplace ih =>
    rw [List.infix_cons_iff, not_or]
    refine ⟨?_, ih⟩
    rw [placeholder, List.map_cons, List.cons_prefix_cons]
    exact fun h => Mark.noConfusion h.1
  | case3 c cs hplace ih =>
    rw [List.infix_cons_iff, not_or]
    refine ⟨fun h => placeAt_none hplace hi ?_, ih⟩
    have hbegins : placeholder i <+: written placeholder (.letter c :: marks n cs) :=
      letters_prefix h
    rwa [written, written_marks] at hbegins

theorem marks_append_of_notMem {s : List Char} (hs : '\x7b' ∉ s) (t : List Char) :
    marks n (s ++ t) = s.map .letter ++ marks n t := by
  induction s with
  | nil => rfl
  | cons c s ih =>
    rw [List.mem_cons, not_or] at hs
    have hplace : placeAt n (c :: (s ++ t)) = none := by
      rw [placeAt, List.find?_eq_none]
      intro i _
      rw [List.isPrefixOf_iff_prefix]
      exact not_placeholder_prefix_cons (Ne.symm hs.1)
    rw [List.cons_append, marks, hplace, List.map_cons, List.cons_append]
    exact congrArg _ (ih hs.2)

end Marks

/-- No letter between the places begins place `k` where the marks are written. -/
def Apart (k : Nat) (texts : Nat → List Char) : List Mark → Prop
  | [] => True
  | .letter c :: rest => ¬ placeholder k <+: c :: written texts rest ∧ Apart k texts rest
  | .place _ :: rest => Apart k texts rest

section Round

variable {n k : Nat} {texts : Nat → List Char} {found : List Mark}

/-- A round leaves the letters alone and works on each place by itself. -/
theorem replaceAll_written {v : List Char} (hwhole : ∀ i, Whole (texts i))
    (h : Apart k texts found) :
    replaceAll (placeholder k) v (written texts found) =
      written (fun i => replaceAll (placeholder k) v (texts i)) found := by
  induction found with
  | nil => exact replaceAll_nil
  | cons m found ih =>
    cases m with
    | letter c => rw [written, replaceAll_cons h.1, ih h.2, written]
    | place i => rw [written, (hwhole i).replaceAll_append, ih h, written]

/-- A run writes the marks with what it makes of each place by itself, as long as all the texts
that come up are of one kind, among which the letters never begin a place. -/
theorem fillFrom_written {arguments : List String} (Kind : List Char → Prop)
    (whole : ∀ s, Kind s → Whole s)
    (apart : ∀ texts, (∀ i, Kind (texts i)) → ∀ k < n, Apart k texts found)
    (hn : k + arguments.length ≤ n) (hargs : ∀ a ∈ arguments, Kind a.toList)
    (h : ∀ i, Kind (texts i)) :
    fillFrom k (written texts found) arguments =
      written (fun i => fillFrom k (texts i) arguments) found := by
  induction arguments generalizing k texts with
  | nil => rfl
  | cons a arguments ih =>
    rw [List.length_cons] at hn
    rw [List.forall_mem_cons] at hargs
    have hnext : ∀ i, Kind (replaceAll (placeholder k) a.toList (texts i)) := by
      intro i
      have hcases : replaceAll (placeholder k) a.toList (texts i) = a.toList ∨
          replaceAll (placeholder k) a.toList (texts i) = texts i := (whole _ (h i)).replaceAll_cases
      rcases hcases with hi | hi
      · rw [hi]
        exact hargs.1
      · rw [hi]
        exact h i
    rw [fillFrom, replaceAll_written (fun i => whole _ (h i)) (apart texts h k (by omega)),
      ih (by omega) hargs.2 hnext]
    rfl

theorem apart_marks {text : List Char} (hk : k < n) : Apart k placeholder (marks n text) := by
  fun_induction marks n text with
  | case1 => exact trivial
  | case2 c cs i hplace ih => exact ih
  | case3 c cs hplace ih =>
    rw [Apart, written_marks]
    exact ⟨placeAt_none hplace hk, ih⟩

end Round

/-! ## Whether arguments go right -/

/-- A whole text that cannot continue what the letters before it have begun. -/
def Stopping (s : List Char) : Prop :=
  Whole s ∧ ∃ c rest, s = c :: rest ∧ c.isDigit = false ∧ c ≠ '\x7d'

theorem stopping_placeholder (i : Nat) : Stopping (placeholder i) :=
  ⟨.inl ⟨i, rfl⟩, '\x7b', _, rfl, by decide, by decide⟩

theorem stopping_letter : Stopping "x".toList :=
  ⟨.inr (by decide), 'x', [], rfl, by decide, by decide⟩

theorem letters_prefix_of_stopping {texts : Nat → List Char} (h : ∀ i, Stopping (texts i))
    {s : List Char} (hs : ∀ c ∈ s, c.isDigit = true ∨ c = '\x7d') {found : List Mark}
    (hbegins : s <+: written texts found) : s.map .letter <+: found := by
  induction s generalizing found with
  | nil => exact List.nil_prefix
  | cons d s ih =>
    rw [List.forall_mem_cons] at hs
    match found with
    | [] => exact absurd (List.prefix_nil.mp hbegins) (List.cons_ne_nil _ _)
    | .letter c :: found =>
      rw [written, List.cons_prefix_cons] at hbegins
      rw [List.map_cons, List.cons_prefix_cons, hbegins.1]
      exact ⟨rfl, ih hs.2 hbegins.2⟩
    | .place i :: found =>
      obtain ⟨-, c, rest, htext, hdigit, hclosing⟩ := h i
      rw [written, htext, List.cons_append, List.cons_prefix_cons] at hbegins
      rw [hbegins.1, hdigit] at hs
      cases hs.1 with
      | inl h => contradiction
      | inr h => exact absurd h hclosing

theorem apart_of_stopping {k : Nat} {texts : Nat → List Char} (h : ∀ i, Stopping (texts i))
    {found : List Mark} (hfound : ¬ (placeholder k).map .letter <:+: found) :
    Apart k texts found := by
  induction found with
  | nil => exact trivial
  | cons m found ih =>
    rw [List.infix_cons_iff, not_or] at hfound
    cases m with
    | place i => exact ih hfound.2
    | letter c =>
      refine ⟨fun hbegins => hfound.1 ?_, ih hfound.2⟩
      rw [placeholder, List.cons_prefix_cons] at hbegins
      rw [placeholder, List.map_cons, List.cons_prefix_cons, hbegins.1]
      refine ⟨rfl, letters_prefix_of_stopping h ?_ hbegins.2⟩
      intro c hc
      rw [List.mem_append, List.mem_singleton] at hc
      exact hc.imp_left isDigit_of_mem_toDigits

/-- Arguments of which the one at `i` spells the place of the next. -/
def misleading (n i : Nat) : List String :=
  (List.range n).map fun j => if j = i then String.ofList (placeholder (i + 1)) else "x"

theorem misleading_getD {n i j : Nat} (hj : j < n) :
    ((misleading n i).getD j "").toList =
      if j = i then placeholder (i + 1) else "x".toList := by
  have hget : (misleading n i).getD j "" =
      if j = i then String.ofList (placeholder (i + 1)) else "x" := by
    simp [misleading, hj]
  rw [hget]
  by_cases h : j = i
  · rw [if_pos h, if_pos h, String.toList_ofList]
  · rw [if_neg h, if_neg h]

theorem stopping_of_mem_misleading {n i : Nat} {a : String} (h : a ∈ misleading n i) :
    Stopping a.toList := by
  obtain ⟨j, -, rfl⟩ := List.mem_map.mp h
  by_cases hj : j = i
  · rw [if_pos hj, String.toList_ofList]
    exact stopping_placeholder _
  · rw [if_neg hj]
    exact stopping_letter

/-- The round after puts its own argument in the place that was brought along. -/
theorem fillFrom_misleading {n i j : Nat} (hi : i + 1 < n) (hj : j < n) :
    fillFrom 0 (placeholder j) (misleading n i) = "x".toList := by
  have hlength : (misleading n i).length = n := by simp [misleading]
  rw [fillFrom_placeholder (Nat.zero_le j) (by omega), Nat.sub_zero, misleading_getD hj]
  by_cases h : j = i
  · subst h
    have hfirst : ((misleading n j).drop (j + 1)).getD 0 "" = (misleading n j).getD (j + 1) "" := by
      rw [List.getD_eq_getElem?_getD, List.getElem?_drop, Nat.add_zero,
        List.getD_eq_getElem?_getD]
    rw [if_pos rfl, fillFrom_placeholder (Nat.le_refl _) (by rw [List.length_drop]; omega),
      Nat.sub_self, hfirst, misleading_getD hi, if_neg (by omega)]
    exact fillFrom_of_notMem (by decide)
  · rw [if_neg h]
    exact fillFrom_of_notMem (by decide)

theorem fillFrom_misleading_ne {template : List Char} {n i : Nat} (hi : i + 1 < n)
    (h : placeholder i <:+: template) :
    fillFrom 0 template (misleading n i) ≠ substitute (misleading n i) template := by
  have hlength : (misleading n i).length = n := by simp [misleading]
  have hfill : fillFrom 0 template (misleading n i) =
      written (fun _ => "x".toList) (marks n template) := by
    have hrun : fillFrom 0 (written placeholder (marks n template)) (misleading n i) =
        written (fun j => fillFrom 0 (placeholder j) (misleading n i)) (marks n template) :=
      fillFrom_written (n := n) Stopping (fun s hs => hs.1)
        (fun texts htexts k hk => apart_of_stopping htexts (not_letters_infix_marks hk))
        (by omega) (fun a ha => stopping_of_mem_misleading ha) stopping_placeholder
    rw [written_marks] at hrun
    rw [hrun]
    exact written_congr fun j hj => fillFrom_misleading hi (lt_of_place_mem hj)
  have hsubstitute : substitute (misleading n i) template =
      written (fun j => if j = i then placeholder (i + 1) else "x".toList) (marks n template) := by
    rw [substitute, hlength]
    exact written_congr fun j hj => misleading_getD (lt_of_place_mem hj)
  have hone : "x".toList.length = 1 := rfl
  have htwo : 1 < (placeholder (i + 1)).length := by simp [placeholder]
  intro heq
  have hlt : (fillFrom 0 template (misleading n i)).length <
      (substitute (misleading n i) template).length := by
    rw [hfill, hsubstitute]
    apply written_length_lt (place_mem_marks (by omega) h)
    · rw [if_pos rfl]
      omega
    · intro j
      by_cases hj : j = i
      · rw [if_pos hj]
        omega
      · rw [if_neg hj]
  rw [heq] at hlt
  omega

/-- With a place for the last argument alone, the rounds before find nothing. -/
theorem fillFrom_of_last {template : List Char} {arguments : List String}
    (h : ∀ i, i + 1 < arguments.length → ¬ placeholder i <:+: template) :
    fillFrom 0 template arguments = substitute arguments template := by
  rcases List.eq_nil_or_concat' arguments with rfl | ⟨first, a, rfl⟩
  · show template = written _ (marks 0 template)
    have hnone {texts : Nat → List Char} :
        written texts (marks 0 template) = written placeholder (marks 0 template) :=
      written_congr fun i hi => absurd (lt_of_place_mem hi) (by omega)
    rw [hnone, written_marks]
  · rw [List.length_append, List.length_singleton] at h
    have hfirst : fillFrom 0 template first = template :=
      fillFrom_of_not_infix fun i _ hi => h i (by omega)
    have hapart : Apart first.length placeholder (marks (first.length + 1) template) :=
      apart_marks (Nat.lt_succ_self _)
    have hround := replaceAll_written (v := a.toList) (fun i => .inl ⟨i, rfl⟩) hapart
    rw [written_marks] at hround
    rw [fillFrom_append, hfirst, Nat.zero_add, fillFrom, fillFrom, hround, substitute,
      List.length_append, List.length_singleton]
    apply written_congr
    intro i hi
    have hlt := lt_of_place_mem hi
    have hinfix : placeholder i <:+: template := by
      have := placeholder_infix_written hi
      rwa [written_marks] at this
    have hlast : i = first.length := by
      by_contra hne
      exact h i (by omega) hinfix
    rw [replaceAll_placeholder, if_pos hlast.symm, hlast]
    simp

/-- Every opening brace begins a place. -/
def Tidy (template : List Char) : Prop :=
  ∀ s, '\x7b' :: s <:+ template → ∃ i, placeholder i <+: '\x7b' :: s

theorem Tidy.of_suffix {s t : List Char} (h : Tidy t) (hs : s <:+ t) : Tidy s :=
  fun r hr => h r (hr.trans hs)

theorem Tidy.apart {n k : Nat} {texts : Nat → List Char} {template : List Char}
    (h : Tidy template) (hk : k < n) : Apart k texts (marks n template) := by
  fun_induction marks n template with
  | case1 => exact trivial
  | case2 c cs i hplace ih =>
    exact ih (h.of_suffix ((List.drop_suffix _ _).trans (List.suffix_cons c cs)))
  | case3 c cs hplace ih =>
    refine ⟨fun hbegins => ?_, ih (h.of_suffix (List.suffix_cons c cs))⟩
    by_cases hc : c = '\x7b'
    · subst hc
      -- The place that begins here has a number too large for these arguments.
      obtain ⟨j, s, hj⟩ := h cs List.suffix_rfl
      have hcs : cs = (Nat.toDigits 10 j ++ ['\x7d']) ++ s := (List.cons.inj hj).2.symm
      rw [hcs, marks_append_of_notMem (opening_notMem_tail_placeholder j), written_append,
        written_letters] at hbegins
      have hkj : k = j := placeholder_prefix_append.mp hbegins
      exact placeAt_none hplace hk (hkj ▸ ⟨s, hj⟩)
    · exact not_placeholder_prefix_cons hc hbegins

theorem Tidy.fillFrom_eq {template : List Char} (h : Tidy template) {arguments : List String}
    (hargs : ∀ a ∈ arguments, '\x7b' ∉ a.toList) :
    fillFrom 0 template arguments = substitute arguments template := by
  have hrun : fillFrom 0 (written placeholder (marks arguments.length template)) arguments =
      written (fun i => fillFrom 0 (placeholder i) arguments) (marks arguments.length template) :=
    fillFrom_written (n := arguments.length) Whole (fun s hs => hs)
      (fun texts _ k hk => h.apart hk) (by omega) (fun a ha => .inr (hargs a ha))
      (fun i => .inl ⟨i, rfl⟩)
  rw [written_marks] at hrun
  rw [hrun]
  apply written_congr
  intro i hi
  have hlt := lt_of_place_mem hi
  have hmem : arguments.getD i "" ∈ arguments := by
    rw [List.getD_eq_getElem?_getD, List.getElem?_eq_getElem hlt]
    exact List.getElem_mem hlt
  rw [fillFrom_placeholder (Nat.zero_le i) (by omega), Nat.sub_zero]
  exact fillFrom_of_notMem (hargs _ hmem)

theorem tidy_template (m : Message) : Tidy m.template.toList := by
  have hall : ∀ s ∈ m.template.toList.tails, s.head? = some '\x7b' →
      ∃ i < 2, (placeholder i).isPrefixOf s = true := by
    cases m <;> decide +kernel
  intro s hs
  obtain ⟨i, -, hi⟩ := hall _ ((List.mem_tails _ _).mpr hs) rfl
  exact ⟨i, List.isPrefixOf_iff_prefix.mp hi⟩

/-- Filling a template in rounds puts every list of `n` arguments in at once if and only if the
template has no place but the one of the last of them.  A wording of the catalogue is filled
as if at once by all arguments without an opening brace. -/
theorem fill_substitutes_exactly (template : String) (n : Nat) :
    ((∀ arguments : List String, arguments.length = n →
        fill template arguments = String.ofList (substitute arguments template.toList)) ↔
      ∀ i, i + 1 < n → ¬ placeholder i <:+: template.toList) ∧
    ∀ m : Message, m.template = template →
      ∀ arguments : List String, (∀ a ∈ arguments, '\x7b' ∉ a.toList) →
        m.text arguments = String.ofList (substitute arguments template.toList) := by
  refine ⟨⟨?_, ?_⟩, ?_⟩
  · intro h i hi hinfix
    have hlength : (misleading n i).length = n := by simp [misleading]
    have heq := h (misleading n i) hlength
    rw [fill, String.ofList_inj] at heq
    exact fillFrom_misleading_ne hi hinfix heq
  · intro h arguments hlength
    rw [fill, fillFrom_of_last (by rwa [hlength])]
  · rintro m rfl arguments hargs
    rw [text, fill, (tidy_template m).fillFrom_eq hargs]

theorem fill_substitutes_unreadableFile :
    unreadableFile.text ["a.js", "No such file"] =
        String.ofList (substitute ["a.js", "No such file"] unreadableFile.template.toList) ∧
      ¬ ∀ arguments : List String, arguments.length = 2 →
        fill unreadableFile.template arguments =
          String.ofList (substitute arguments unreadableFile.template.toList) := by
  obtain ⟨hexactly, hcatalogue⟩ := fill_substitutes_exactly unreadableFile.template 2
  constructor
  · exact hcatalogue unreadableFile rfl ["a.js", "No such file"] (by decide)
  · intro h
    have hfirst := hexactly.mp h 0 (by decide)
    exact hfirst (by decide +kernel)

/-- A file can have the name of a place. -/
example : unreadableFile.text ["\x7b1\x7d", "gone"] = "Could not read file 'gone': gone." := by
  decide +kernel

end Message
end ScriptOutline
