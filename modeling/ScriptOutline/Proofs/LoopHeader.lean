/-
Where semicolons are held back, against where loop headers are.

A header is what stands between the first round bracket behind a `for` and the
bracket that closes it; one that is never closed goes on to the end.  The stream
keeps one flag and one count for all of it, and `active_headerAt_iff` says what
these amount to: semicolons are held back from the latest `for` on, until a
closing bracket leaves no round bracket open behind it.

That is the header itself except in two cases.  A loop inside a header takes
the flag over and ends it too early, and behind a `for` that is no loop the flag
comes too early.  `holdsBack_exactly_iff` says that nothing else goes wrong.
-/
import ScriptOutline.Proofs.Semicolons

namespace ScriptOutline
namespace Semicolons

def isFor (t : Token) : Bool := t.isKeyword "for"

def opensRound (t : Token) : Bool := t.isPunctuation "("

def closesRound (t : Token) : Bool := t.isPunctuation ")"

theorem not_opensRound_of_keyword {t : Token} (h : t.kind = .keyword) :
    opensRound t = false ∧ closesRound t = false := by
  simp [opensRound, closesRound, Token.isPunctuation, h]

theorem closesRound_of_opensRound {t : Token} (h : opensRound t = true) :
    closesRound t = false := by
  simp only [opensRound, closesRound, Token.isPunctuation, Bool.and_eq_true, beq_iff_eq] at *
  simp [h.2]

theorem not_round_of_isFor {t : Token} (h : isFor t = true) :
    opensRound t = false ∧ closesRound t = false := by
  apply not_opensRound_of_keyword
  simp only [isFor, Token.isKeyword, Bool.and_eq_true, beq_iff_eq] at h
  exact h.1

def weight (t : Token) : Int :=
  if opensRound t then 1 else if closesRound t then -1 else 0

variable (r : Nat → Token)

/-- The round brackets that the first `n` tokens open, less those they close. -/
def level (r : Nat → Token) : Nat → Int
  | 0 => 0
  | n + 1 => level r n + weight (r n)

theorem level_succ_of_opens {n : Nat} (h : opensRound (r n) = true) :
    level r (n + 1) = level r n + 1 := by
  simp [level, weight, h]

theorem level_succ_of_closes {n : Nat} (h : closesRound (r n) = true) :
    level r (n + 1) = level r n - 1 := by
  have ho : opensRound (r n) = false := by
    cases hc : opensRound (r n) with
    | false => rfl
    | true =>
      rw [closesRound_of_opensRound hc] at h
      cases h
  simp only [level, weight, h, ho, Bool.false_eq_true, if_false, if_true]
  omega

theorem level_le_succ {n : Nat} (h : closesRound (r n) = false) :
    level r n ≤ level r (n + 1) := by
  simp only [level, weight, h, Bool.false_eq_true, if_false]
  split <;> omega

theorem level_succ_of_neither {n : Nat} (ho : opensRound (r n) = false)
    (hc : closesRound (r n) = false) : level r (n + 1) = level r n := by
  simp [level, weight, ho, hc]

/-- Token `i` stands in the header that the bracket `o` opens for the loop `f`. -/
def InHeaderOf (f o i : Nat) : Prop :=
  isFor (r f) = true ∧ f < o ∧ opensRound (r o) = true ∧
  (∀ j, f < j → j < o → opensRound (r j) = false) ∧
  o < i ∧ ∀ m, o < m → m ≤ i → level r o < level r (m + 1)

def InHeader (i : Nat) : Prop := ∃ f o, InHeaderOf r f o i

/-- The last `for` among the first `n` tokens is token `f`. -/
def Latest (f n : Nat) : Prop :=
  f < n ∧ isFor (r f) = true ∧ ∀ j, f < j → j < n → isFor (r j) = false

/-- Among the first `n` tokens a closing bracket leaves no round bracket open
behind token `f`. -/
def Closed (f n : Nat) : Prop :=
  ∃ m, f < m ∧ m < n ∧ closesRound (r m) = true ∧ level r (m + 1) ≤ level r (f + 1)

variable {r}

theorem Latest.unique {f g n : Nat} (hf : Latest r f n) (hg : Latest r g n) : f = g := by
  obtain ⟨hfn, hff, hfl⟩ := hf
  obtain ⟨hgn, hgf, hgl⟩ := hg
  rcases Nat.lt_trichotomy f g with h | h | h
  · rw [hfl g h hgn] at hgf
    cases hgf
  · exact h
  · rw [hgl f h hfn] at hff
    cases hff

theorem Latest.of_succ {f n : Nat} (h : Latest r f (n + 1)) (hn : isFor (r n) = false) :
    Latest r f n := by
  obtain ⟨hfn, hff, hfl⟩ := h
  have hne : f ≠ n := by
    rintro rfl
    rw [hn] at hff
    cases hff
  exact ⟨by omega, hff, fun j hj hjn => hfl j hj (by omega)⟩

theorem Latest.succ {f n : Nat} (h : Latest r f n) (hn : isFor (r n) = false) :
    Latest r f (n + 1) := by
  obtain ⟨hfn, hff, hfl⟩ := h
  refine ⟨by omega, hff, fun j hj hjn => ?_⟩
  by_cases he : j = n
  · rw [he]
    exact hn
  · exact hfl j hj (by omega)

theorem Closed.mono {f n n' : Nat} (h : Closed r f n) (hn : n ≤ n') : Closed r f n' := by
  obtain ⟨m, hfm, hmn, hc, hl⟩ := h
  exact ⟨m, hfm, by omega, hc, hl⟩

theorem not_closed_succ {f n : Nat} (h : ¬ Closed r f n)
    (hn : closesRound (r n) = true → level r (f + 1) < level r (n + 1)) :
    ¬ Closed r f (n + 1) := by
  rintro ⟨m, hfm, hmn, hc, hl⟩
  by_cases he : m = n
  · subst he
    have := hn hc
    omega
  · exact h ⟨m, hfm, by omega, hc, hl⟩

/-- The tracker behind the first `n` tokens. -/
structure Tracked (r : Nat → Token) (n : Nat) (h : ForHeader) : Prop where
  of_active : h.active = true →
    ∃ f, Latest r f n ∧ ¬ Closed r f n ∧ (h.brackets : Int) = level r n - level r (f + 1)
  of_inactive : h.active = false → ∀ f, Latest r f n → Closed r f n

theorem Tracked.track {n : Nat} {h : ForHeader} (ht : Tracked r n h) :
    Tracked r (n + 1) (h.track (r n)) := by
  by_cases hf : isFor (r n) = true
  · have he : h.track (r n) = { active := true } := by
      simp only [ForHeader.track, show (r n).isKeyword "for" = true from hf, if_true]
    rw [he]
    refine ⟨fun _ => ⟨n, ⟨by omega, hf, fun j hj hjn => by omega⟩, ?_, ?_⟩, by simp⟩
    · rintro ⟨m, hm, hmn, -⟩
      omega
    · simp
  · have hf' : isFor (r n) = false := by simpa using hf
    have hk : (r n).isKeyword "for" = false := hf'
    by_cases ha : h.active = true
    · obtain ⟨f, hl, hc, hb⟩ := ht.of_active ha
      by_cases ho : opensRound (r n) = true
      · have he : h.track (r n) = { h with brackets := h.brackets + 1 } := by
          simp [ForHeader.track, hk, ha, show (r n).isPunctuation "(" = true from ho]
        rw [he]
        refine ⟨fun _ => ⟨f, hl.succ hf', not_closed_succ hc ?_, ?_⟩, by simp [ha]⟩
        · rw [closesRound_of_opensRound ho]
          simp
        · rw [level_succ_of_opens r ho]
          push_cast
          omega
      · have ho' : (r n).isPunctuation "(" = false := by simpa [opensRound] using ho
        by_cases hr : closesRound (r n) = true
        · have he : h.track (r n) =
              { active := decide (1 < h.brackets), brackets := h.brackets - 1 } := by
            simp [ForHeader.track, hk, ha, ho', show (r n).isPunctuation ")" = true from hr]
          have hlev := level_succ_of_closes r hr
          rw [he]
          refine ⟨fun hact => ⟨f, hl.succ hf', not_closed_succ hc fun _ => ?_, ?_⟩, ?_⟩
          · have : 1 < h.brackets := by simpa using hact
            omega
          · have : 1 < h.brackets := by simpa using hact
            rw [hlev]
            push_cast
            omega
          · intro hina g hg
            have hle : ¬ 1 < h.brackets := by simpa using hina
            have hgf : g = f := (hg.of_succ hf').unique hl
            subst hgf
            exact ⟨n, hl.1, by omega, hr, by omega⟩
        · have hr' : (r n).isPunctuation ")" = false := by simpa [closesRound] using hr
          have he : h.track (r n) = h := by
            simp [ForHeader.track, hk, ha, ho', hr']
          rw [he]
          refine ⟨fun _ => ⟨f, hl.succ hf', not_closed_succ hc (fun hx => absurd hx hr), ?_⟩,
            by simp [ha]⟩
          rw [level_succ_of_neither r (by simpa using ho) (by simpa using hr)]
          exact hb
    · have ha' : h.active = false := by simpa using ha
      have he : h.track (r n) = h := by
        rw [ForHeader.track_of_inactive ha', if_neg (by simp [hk])]
      rw [he]
      refine ⟨fun hact => absurd hact ha, fun _ g hg => ?_⟩
      exact (ht.of_inactive ha' g (hg.of_succ hf')).mono (by omega)

theorem tracked_headerAt (n : Nat) : Tracked r n (headerAt r n) := by
  induction n with
  | zero =>
    refine ⟨fun h => by simp [headerAt] at h, fun _ f hf => ?_⟩
    exact absurd hf.1 (Nat.not_lt_zero f)
  | succ n ih => exact ih.track

/-- Semicolons are held back behind the latest `for`, until a closing bracket
leaves no round bracket open behind it. -/
theorem active_headerAt_iff (n : Nat) :
    (headerAt r n).active = true ↔ ∃ f, Latest r f n ∧ ¬ Closed r f n := by
  have ht := tracked_headerAt (r := r) n
  constructor
  · intro ha
    obtain ⟨f, hl, hc, -⟩ := ht.of_active ha
    exact ⟨f, hl, hc⟩
  · rintro ⟨f, hl, hc⟩
    cases ha : (headerAt r n).active with
    | true => rfl
    | false => exact absurd (ht.of_inactive ha f hl) hc

/-! ## Holding back against headers -/

/-- The latest loop before the place behind token `i` has been closed. -/
def LoopEnded (r : Nat → Token) (i : Nat) : Prop := ∃ f, Latest r f (i + 1) ∧ Closed r f (i + 1)

/-- The latest `for` before the place behind token `i` has met no round bracket. -/
def AwaitsBracket (r : Nat → Token) (i : Nat) : Prop :=
  ∃ f, Latest r f (i + 1) ∧
    ∀ j, f < j → j ≤ i → opensRound (r j) = false ∧ closesRound (r j) = false

theorem InHeaderOf.pred {f o i : Nat} (h : InHeaderOf r f o (i + 1))
    (hi : opensRound (r i) = false) : InHeaderOf r f o i := by
  obtain ⟨hf, hfo, ho, hfirst, hoi, hlev⟩ := h
  have hne : o ≠ i := by
    rintro rfl
    rw [hi] at ho
    cases ho
  exact ⟨hf, hfo, ho, hfirst, by omega, fun m hm hmi => hlev m hm (by omega)⟩

/-- Inside a header some `for` has been met. -/
theorem InHeaderOf.exists_latest {f o i : Nat} (h : InHeaderOf r f o i) :
    ∃ g, Latest r g (i + 1) := by
  obtain ⟨hf, hfo, -, -, hoi, -⟩ := h
  have hlast : ∀ n, f < n → ∃ g, Latest r g n := by
    intro n hn
    induction n with
    | zero => omega
    | succ n ih =>
      cases hx : isFor (r n) with
      | true => exact ⟨n, by omega, hx, fun j hj hjn => by omega⟩
      | false =>
        have hne : f ≠ n := by
          rintro rfl
          rw [hx] at hf
          cases hf
        obtain ⟨g, hg⟩ := ih (by omega)
        exact ⟨g, hg.succ hx⟩
  exact hlast (i + 1) (by omega)

theorem exists_first {p : Nat → Bool} {a b : Nat} (h : ∃ j, a < j ∧ j ≤ b ∧ p j = true) :
    ∃ j, a < j ∧ j ≤ b ∧ p j = true ∧ ∀ k, a < k → k < j → p k = false := by
  obtain ⟨j, haj, hjb, hj⟩ := h
  induction j using Nat.strongRecOn with
  | _ j ih =>
    by_cases hex : ∃ k, a < k ∧ k < j ∧ p k = true
    · obtain ⟨k, hak, hkj, hk⟩ := hex
      exact ih k hkj hak (by omega) hk
    · refine ⟨j, haj, hjb, hj, fun k hak hkj => ?_⟩
      cases hk : p k with
      | false => rfl
      | true => exact absurd ⟨k, hak, hkj, hk⟩ hex

/-- A `for` that holds semicolons back and has met an opening bracket has the
place in its header. -/
theorem inHeader_of_not_closed {f i : Nat} (hl : Latest r f (i + 1)) (hc : ¬ Closed r f (i + 1))
    (hi : opensRound (r i) = false) (ho : ∃ j, f < j ∧ j ≤ i ∧ opensRound (r j) = true) :
    InHeader r i := by
  obtain ⟨o, hfo, hoi, hopen, hfirst⟩ := exists_first ho
  have hne : o ≠ i := by
    rintro rfl
    rw [hi] at hopen
    cases hopen
  have hfw := not_round_of_isFor hl.2.1
  -- before its bracket the `for` has met no closing bracket either
  have hflat : ∀ n, f < n → n ≤ o → level r n = level r (f + 1) := by
    intro n hfn hno
    induction n with
    | zero => omega
    | succ n ih =>
      by_cases he : n = f
      · rw [he]
      · have hn := ih (by omega) (by omega)
        have hcl : closesRound (r n) = false := by
          cases hx : closesRound (r n) with
          | false => rfl
          | true =>
            have := level_succ_of_closes r hx
            exact absurd ⟨n, by omega, by omega, hx, by omega⟩ hc
        rw [level_succ_of_neither r (hfirst n (by omega) (by omega)) hcl, hn]
  have hlo : level r o = level r (f + 1) := hflat o hfo (Nat.le_refl o)
  refine ⟨f, o, hl.2.1, hfo, hopen, hfirst, by omega, fun m hom hmi => ?_⟩
  induction m with
  | zero => omega
  | succ m ih =>
    have hprev : level r o < level r (m + 1) := by
      by_cases he : m = o
      · subst he
        rw [level_succ_of_opens r hopen]
        omega
      · exact ih (by omega) (by omega)
    cases hx : closesRound (r (m + 1)) with
    | false =>
      have := level_le_succ r hx
      omega
    | true =>
      rw [hlo]
      by_cases hle : level r (m + 1 + 1) ≤ level r (f + 1)
      · exact absurd ⟨m + 1, by omega, by omega, hx, hle⟩ hc
      · omega

/-- Where a semicolon is called for and the place is in no header, it is held
back exactly by a `for` that has met no round bracket. -/
theorem active_iff_awaitsBracket {i : Nat} (hn : needsSemicolon (r i) (r (i + 1)) = true)
    (hout : ¬ InHeader r i) : (headerAt r (i + 1)).active = true ↔ AwaitsBracket r i := by
  have hkey := not_opensRound_of_keyword (Token.isJump_kind (isJump_of_needsSemicolon hn))
  rw [active_headerAt_iff]
  constructor
  · rintro ⟨f, hl, hc⟩
    have hno : ∀ j, f < j → j ≤ i → opensRound (r j) = false := by
      intro j hfj hji
      cases hx : opensRound (r j) with
      | false => rfl
      | true => exact absurd (inHeader_of_not_closed hl hc hkey.1 ⟨j, hfj, hji, hx⟩) hout
    have hflat : ∀ n, f < n → n ≤ i + 1 → level r n ≤ level r (f + 1) := by
      intro n hfn hni
      induction n with
      | zero => omega
      | succ n ih =>
        by_cases he : n = f
        · exact Int.le_of_eq (by rw [he])
        · have hn := ih (by omega) (by omega)
          have hw : weight (r n) ≤ 0 := by
            simp only [weight, hno n (by omega) (by omega), Bool.false_eq_true, if_false]
            split <;> omega
          rw [level]
          omega
    refine ⟨f, hl, fun j hfj hji => ⟨hno j hfj hji, ?_⟩⟩
    cases hx : closesRound (r j) with
    | false => rfl
    | true => exact absurd ⟨j, hfj, by omega, hx, hflat (j + 1) (by omega) (by omega)⟩ hc
  · rintro ⟨f, hl, hno⟩
    refine ⟨f, hl, ?_⟩
    rintro ⟨m, hfm, hmi, hc, -⟩
    rw [(hno m hfm (by omega)).2] at hc
    cases hc

/-- Where a semicolon is called for inside a header, it is put in exactly if the
latest loop has ended already. -/
theorem inactive_iff_loopEnded {i : Nat} (hin : InHeader r (i + 1))
    (hn : needsSemicolon (r i) (r (i + 1)) = true) :
    (headerAt r (i + 1)).active = false ↔ LoopEnded r i := by
  have hkey := not_opensRound_of_keyword (Token.isJump_kind (isJump_of_needsSemicolon hn))
  obtain ⟨f, o, hin⟩ := hin
  obtain ⟨g, hg⟩ := (hin.pred hkey.1).exists_latest
  rw [← Bool.not_eq_true, active_headerAt_iff]
  constructor
  · intro hnot
    refine ⟨g, hg, ?_⟩
    by_cases hc : Closed r g (i + 1)
    · exact hc
    · exact absurd ⟨g, hg, hc⟩ hnot
  · rintro ⟨g', hg', hc⟩ ⟨h, hh, hnc⟩
    rw [hh.unique hg'] at hnc
    exact hnc hc

/-- Headers and nothing else hold semicolons back: none is put in before a token
in a header, and between two tokens outside every header the neighbours alone
decide. -/
def HoldsBackExactly (r : Nat → Token) : Prop :=
  (∀ i, InHeader r (i + 1) → due r i = false) ∧
  ∀ i, ¬ InHeader r i → ¬ InHeader r (i + 1) → due r i = needsSemicolon (r i) (r (i + 1))

theorem holdsBackExactly_iff (r : Nat → Token) :
    HoldsBackExactly r ↔
      ∀ i, needsSemicolon (r i) (r (i + 1)) = true →
        ¬ (InHeader r (i + 1) ∧ LoopEnded r i) ∧
        ¬ (¬ InHeader r i ∧ ¬ InHeader r (i + 1) ∧ AwaitsBracket r i) := by
  constructor
  · rintro ⟨hin, hout⟩ i hn
    refine ⟨fun ⟨hi, he⟩ => ?_, fun ⟨hi, hi', ha⟩ => ?_⟩
    · have hd := hin i hi
      rw [due_eq, hn, (inactive_iff_loopEnded hi hn).mpr he] at hd
      cases hd
    · have hd := hout i hi hi'
      rw [due_eq, hn, (active_iff_awaitsBracket hn hi).mpr ha] at hd
      cases hd
  · intro h
    refine ⟨fun i hi => ?_, fun i hi hi' => ?_⟩
    · cases hn : needsSemicolon (r i) (r (i + 1)) with
      | false => rw [due_eq, hn, Bool.and_false]
      | true =>
        have hact : (headerAt r (i + 1)).active = true := by
          cases ha : (headerAt r (i + 1)).active with
          | true => rfl
          | false => exact absurd ⟨hi, (inactive_iff_loopEnded hi hn).mp ha⟩ (h i hn).1
        rw [due_eq, hact]
        rfl
    · cases hn : needsSemicolon (r i) (r (i + 1)) with
      | false => rw [due_eq, hn, Bool.and_false]
      | true =>
        have hina : (headerAt r (i + 1)).active = false := by
          cases ha : (headerAt r (i + 1)).active with
          | false => rfl
          | true =>
            exact absurd ⟨hi, hi', (active_iff_awaitsBracket hn hi).mp ha⟩ (h i hn).2
        rw [due_eq, hina, hn]
        rfl

end Semicolons

namespace TokenStream

open Semicolons

def advanced (s : TokenStream) : Nat → TokenStream
  | 0 => s
  | n + 1 => ((s.advanced n).answer .advance).2

theorem advanced_stands {r : Nat → Token} {f : TokenFeed} (hf : f.Delivers r) (n : Nat) :
    Stands f r ((ofFeed f).advanced n) n := by
  induction n with
  | zero => exact .fresh
  | succ n ih => exact (answer_stands hf ih .advance).2

/-- A stream that has come to token `i` of its source goes on with a semicolon
if one is due there.  Headers hold these back exactly, unless a semicolon is
called for in a header behind a loop that has ended, or outside every header
behind a `for` that has met no round bracket. -/
theorem semicolons_heldBack_exactly_iff {r : Nat → Token} {f : TokenFeed} (hf : f.Delivers r) :
    (∀ i, (((ofFeed f).advanced (index r i)).answer .current).1 = .ok (some (r i)) ∧
      (((ofFeed f).advanced (index r i)).answer .peek).1 =
        .ok (some (if due r i then .semicolonBefore (r (i + 1)) else r (i + 1)))) ∧
    (HoldsBackExactly r ↔
      ∀ i, needsSemicolon (r i) (r (i + 1)) = true →
        ¬ (InHeader r (i + 1) ∧ LoopEnded r i) ∧
        ¬ (¬ InHeader r i ∧ ¬ InHeader r (i + 1) ∧ AwaitsBracket r i)) := by
  refine ⟨fun i => ?_, holdsBackExactly_iff r⟩
  have hs := advanced_stands hf (index r i)
  rw [(answer_stands hf hs .current).1, (answer_stands hf hs .peek).1]
  simp only [Semicolons.answer, corrected_index, corrected_index_succ]
  exact ⟨trivial, trivial⟩

def listed (tokens : List Token) (i : Nat) : Token := tokens.getD i { kind := .eof }

theorem delivers_listed {tokens : List Token} (h : ∀ t ∈ tokens, t.location = {}) :
    (TokenFeed.ofTokens tokens).Delivers (listed tokens) := by
  have hback : (tokens.getLast?.map (·.location.back)).getD {} = ({} : Location) := by
    cases hl : tokens.getLast? with
    | none => rfl
    | some t =>
      have ht : t.location = {} := h t (List.mem_of_getLast? hl)
      simp only [Option.map_some, Option.getD_some, ht]
      rfl
  intro i
  simp only [TokenFeed.item, TokenFeed.ofTokens, listed, hback]
  cases hi : tokens[i]? with
  | none => simp [List.getD, hi]
  | some t => simp [List.getD, hi]

/-- Neither `for (for () return`, line break, `x)` nor `for return`, line break,
`x` has its semicolons held back exactly. -/
theorem semicolons_not_heldBack_exactly :
    let mark (value : String) : Token := { kind := .punctuation, value }
    let loop : Token := { kind := .keyword, value := "for" }
    let back : Token := { kind := .keyword, value := "return" }
    let name : Token := { kind := .name, value := "x", lineBreak := true }
    let nested := [loop, mark "(", loop, mark "(", mark ")", back, name, mark ")"]
    let bare := [loop, back, name]
    (TokenFeed.ofTokens nested).Delivers (listed nested) ∧ ¬ HoldsBackExactly (listed nested) ∧
    (TokenFeed.ofTokens bare).Delivers (listed bare) ∧ ¬ HoldsBackExactly (listed bare) := by
  intro mark loop back name nested bare
  have hn : (TokenFeed.ofTokens nested).Delivers (listed nested) := delivers_listed (by decide)
  have hb : (TokenFeed.ofTokens bare).Delivers (listed bare) := delivers_listed (by decide)
  refine ⟨hn, ?_, hb, ?_⟩
  · rw [(semicolons_heldBack_exactly_iff hn).2]
    intro h
    have hlevel : ∀ m, m ≤ 6 → 1 < m → level (listed nested) 1 < level (listed nested) (m + 1) := by
      decide
    have hlast : ∀ j, j < 6 → 2 < j → isFor (listed nested j) = false := by decide
    have hin : InHeaderOf (listed nested) 0 1 6 :=
      ⟨by decide, by decide, by decide, fun j h0 h1 => by omega, by decide,
        fun m h1 h6 => hlevel m h6 h1⟩
    exact (h 5 (by decide)).1 ⟨⟨0, 1, hin⟩, 2,
      ⟨by decide, by decide, fun j h2 h6 => hlast j h6 h2⟩, 4, by decide⟩
  · rw [(semicolons_heldBack_exactly_iff hb).2]
    intro h
    have hopen : ∀ j, opensRound (listed bare j) = false := fun
      | 0 => rfl
      | 1 => rfl
      | 2 => rfl
      | j + 3 => rfl
    have hout : ∀ i, ¬ InHeader (listed bare) i := by
      rintro i ⟨f, o, -, -, ho, -⟩
      rw [hopen o] at ho
      cases ho
    refine (h 1 (by decide)).2 ⟨hout 1, hout 2, 0, ⟨by decide, by decide, fun j h0 h2 => ?_⟩,
      fun j h0 h1 => ⟨hopen j, ?_⟩⟩
    · rw [show j = 1 by omega]
      decide
    · rw [show j = 1 by omega]
      decide

end TokenStream
end ScriptOutline
