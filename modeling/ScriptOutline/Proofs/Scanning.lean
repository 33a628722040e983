/-
What every feed of scanned tokens is like.

`TokenFeed.raw` lists the tokens of a feed.  A reader never gets past a fault, so
from the first one on a bracket stands in, and what holds of all scanned tokens
holds of the whole list.
-/
import ScriptOutline.Proofs.Gaps

namespace ScriptOutline

open Text

theorem Token.fits_of_wordKind {t : Token} (h : t.kind = wordKind t.value) (allowed : Bool) :
    t.fits allowed = true := by
  have hall : ∀ v ∈ ["/", "/="], wordKind v = .name := by decide
  rcases wordKind_cases t.value with hk | ⟨hk, -⟩ | hk | hk <;> rw [hk] at h
  · simp [fits, h]
  · simp only [fits, h, Bool.not_eq_true', Bool.and_eq_false_iff, Bool.or_eq_false_iff,
      beq_eq_false_iff_ne]
    refine .inr ⟨?_, ?_⟩ <;> intro hv <;> rw [hv, hall _ (by decide)] at hk <;> cases hk
  · simp [fits, h]
  · simp [fits, h]

/-- Where a slash may open a regular expression, it is not cut off as a division. -/
theorem Cut.fits_of_read [IdentifierTable] {allowed : Bool} {cs : List Char} {length : Nat}
    {t : Token}
    (h : Cut.read allowed cs = .token t.kind length t.value) : t.fits allowed = true := by
  cases cs with
  | nil =>
    simp only [read, token.injEq] at h
    simp [Token.fits, ← h.1]
  | cons c rest =>
    simp only [read] at h
    split at h
    · simp only [spelled, token.injEq] at h
      simp [Token.fits, ← h.1]
    split at h
    · split at h
      · simp only [spelled, token.injEq] at h
        simp [Token.fits, ← h.1]
      · simp only [spelled, token.injEq] at h
        simp [Token.fits, ← h.1]
    split at h
    · simp only [string] at h
      split at h
      · simp only [token.injEq] at h
        simp [Token.fits, ← h.1]
      · cases h
    split at h
    · simp only [spelled, token.injEq] at h
      simp [Token.fits, ← h.1]
    split at h
    · rename_i hslash
      simp only [Bool.and_eq_true] at hslash
      simp only [regexp] at h
      split at h
      · simp only [spelled, token.injEq] at h
        simp [Token.fits, ← h.1, hslash.2]
      · cases h
    rename_i hslash
    split at h
    · simp only [word, spelled, token.injEq] at h
      obtain ⟨hk, -, hv⟩ := h
      rw [hv] at hk
      exact t.fits_of_wordKind hk.symm allowed
    split at h
    · rename_i sign hsign
      simp only [token.injEq] at h
      obtain ⟨hk, -, hv⟩ := h
      have hbegins := List.find?_some hsign
      rw [hv] at hbegins
      simp only [Token.fits, ← hk, Bool.not_eq_true', Bool.and_eq_false_iff, Bool.or_eq_false_iff,
        beq_eq_false_iff_ne]
      cases allowed with
      | false => exact .inl rfl
      | true =>
        have hc : '/' ≠ c := by
          rintro rfl
          exact hslash rfl
        refine .inr ⟨?_, ?_⟩
        · intro hvalue
          rw [hvalue] at hbegins
          simp [hc] at hbegins
        · intro hvalue
          rw [hvalue] at hbegins
          simp [hc] at hbegins
    · cases h

structure Token.Scanned [IdentifierTable] (t : Token) : Prop where
  lexical : Lexical t.kind t.value
  inserted : t.inserted = false

theorem Lexer.scanned_next [IdentifierTable] {l : Lexer} {t : Token} (h : l.next.1 = .ok t) :
    t.Scanned ∧ t.fits l.regexpAllowed = true ∧ l.next.2.regexpAllowed = !t.endsValue := by
  simp only [next] at h ⊢
  cases hu : (Gap.read l.cursor).unclosed with
  | true => simp [hu] at h
  | false =>
    simp only [hu, Bool.false_eq_true, if_false] at h ⊢
    cases hcut : Cut.read l.regexpAllowed (Gap.read l.cursor).cursor.rest with
    | fault fault length passed => simp [hcut] at h
    | token kind length value =>
      simp only [hcut, Except.ok.injEq] at h ⊢
      subst h
      exact ⟨⟨Cut.lexical_read (Gap.startsToken_read hu) hcut, rfl⟩,
        Cut.fits_of_read hcut, rfl⟩

/-! ## Feeds -/

namespace TokenFeed

def clean (f : TokenFeed) : Nat → Bool
  | 0 => (f.item 0).toBool
  | i + 1 => f.clean i && (f.item (i + 1)).toBool

/-- The tokens of a feed, up to the first fault. -/
def raw (f : TokenFeed) (i : Nat) : Token :=
  match f.item i with
  | .ok t => if f.clean i then t else { kind := .punctuation, value := "(" }
  | .error _ => { kind := .punctuation, value := "(" }

theorem clean_iff {f : TokenFeed} {i : Nat} :
    f.clean i = true ↔ ∀ j, j ≤ i → ∃ t, f.item j = .ok t := by
  have hok : ∀ j, (f.item j).toBool = true ↔ ∃ t, f.item j = .ok t := by
    intro j
    cases f.item j <;> simp [Except.toBool]
  induction i with
  | zero =>
    rw [clean, hok]
    exact ⟨fun h j hj => Nat.le_zero.1 hj ▸ h, fun h => h 0 (Nat.le_refl 0)⟩
  | succ i ih =>
    rw [clean, Bool.and_eq_true, hok]
    constructor
    · rintro ⟨h, hlast⟩ j hj
      by_cases hji : j ≤ i
      · exact ih.1 h j hji
      · have : j = i + 1 := by omega
        exact this ▸ hlast
    · intro h
      exact ⟨ih.2 fun j hj => h j (by omega), h (i + 1) (Nat.le_refl _)⟩

theorem raw_of_clean {f : TokenFeed} {i : Nat} (h : f.clean i = true) :
    f.item i = .ok (f.raw i) := by
  obtain ⟨t, ht⟩ := clean_iff.1 h i (Nat.le_refl i)
  simp [raw, ht, h]

theorem raw_of_not_clean {f : TokenFeed} {i : Nat} (h : f.clean i = false) :
    f.raw i = { kind := .punctuation, value := "(" } := by
  unfold raw
  split <;> simp [h]

theorem offers_raw (f : TokenFeed) : f.Offers f.raw := fun _ h => raw_of_clean (clean_iff.2 h)

theorem item_cons_succ (item : Except LexError Token) (f : TokenFeed) (i : Nat) :
    (f.cons item).item (i + 1) = f.item i := rfl

/-- Every item of a scanned feed is what some scan gives, and the next item is what
the scan behind it gives, unless scanning has come to rest. -/
theorem item_ofLexer [IdentifierTable] (l : Lexer) (i : Nat) :
    ∃ l' : Lexer, (ofLexer l).item i = l'.next.1 ∧
      ((i < (ofLexer l).size ∧ (ofLexer l).item (i + 1) = l'.next.2.next.1 ∧
          (i + 1 < (ofLexer l).size →
            l'.next.2.cursor.offset < l'.next.2.next.2.cursor.offset)) ∨
        ((ofLexer l).size ≤ i ∧ (ofLexer l).item (i + 1) = l'.next.1 ∧
          ¬ l'.cursor.offset < l'.next.2.cursor.offset)) := by
  induction i generalizing l with
  | zero =>
    refine ⟨l, ?_⟩
    rw [ofLexer]
    split
    · refine ⟨rfl, .inl ⟨Nat.succ_pos _, ?_⟩⟩
      rw [item_cons_succ, ofLexer]
      split
      · rename_i hmove
        exact ⟨rfl, fun _ => hmove⟩
      · exact ⟨rfl, fun h => absurd h (Nat.lt_irrefl 1)⟩
    · rename_i hstay
      exact ⟨rfl, .inr ⟨Nat.le_refl 0, rfl, hstay⟩⟩
  | succ i ih =>
    by_cases hmove : l.cursor.offset < l.next.2.cursor.offset
    · obtain ⟨l', hitem, hnext⟩ := ih l.next.2
      refine ⟨l', ?_⟩
      have hl : ofLexer l = (ofLexer l.next.2).cons l.next.1 := by
        rw [ofLexer, if_pos hmove]
      have hsize : (ofLexer l).size = (ofLexer l.next.2).size + 1 := by
        rw [hl]
        rfl
      rw [hsize, Nat.add_lt_add_iff_right, Nat.add_lt_add_iff_right, Nat.add_le_add_iff_right, hl,
        item_cons_succ, item_cons_succ]
      exact ⟨hitem, hnext⟩
    · refine ⟨l, ?_⟩
      have hl : ofLexer l = { items := [], final := l.next.1 } := by
        rw [ofLexer, if_neg hmove]
      rw [hl]
      exact ⟨rfl, .inr ⟨Nat.zero_le _, rfl, hmove⟩⟩

theorem scanned_raw [IdentifierTable] (l : Lexer) (i : Nat) : ((ofLexer l).raw i).Scanned := by
  cases hc : (ofLexer l).clean i with
  | false =>
    rw [raw_of_not_clean hc]
    exact ⟨@Lexical.mark _ '(' rfl, rfl⟩
  | true =>
    obtain ⟨l', hitem, -⟩ := item_ofLexer l i
    rw [raw_of_clean hc] at hitem
    exact (Lexer.scanned_next hitem.symm).1

/-- Behind the items of a feed that is read to the end comes nothing but `eof`. -/
theorem isEof_raw [IdentifierTable] {l : Lexer} {i : Nat} (hg : (ofLexer l).Given (ofLexer l).raw i)
    (hi : (ofLexer l).size ≤ i) : ((ofLexer l).raw i).isEof = true := by
  obtain ⟨l', hitem, hnext⟩ := item_ofLexer l i
  rw [hg i (Nat.le_refl i)] at hitem
  rcases hnext with ⟨hlt, -⟩ | ⟨-, -, hstay⟩
  · exact absurd hi (Nat.not_le.2 hlt)
  · cases he : ((ofLexer l).raw i).isEof with
    | false => exact absurd (Lexer.offset_lt_next hitem.symm he) hstay
    | true => rfl

end TokenFeed

end ScriptOutline
