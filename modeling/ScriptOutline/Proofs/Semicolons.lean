/-
A token stream is an index into one fixed sequence.

`r` lists the tokens of a source in order.  `Semicolons.corrected r` is that
list with a semicolon put in behind every token `i` for which `due r i` holds,
and `TokenStream.answers_eq_corrected` says that no order of looking, looking ahead,
looking back, advancing and asking can tell a stream over the source from an
index into the corrected sequence.

The invariant is `Stands f r s k`, where `f` is the source.  The stream is lazy and looks at most one token
ahead, so a stream at index `k` has fetched nothing, `k + 1` or `k + 2` tokens,
and `Behind` says in what state the source is left by the last of them.
-/
import ScriptOutline.Proofs.Run
import ScriptOutline.Token.Stream

namespace ScriptOutline

namespace TokenFeed

def item (f : TokenFeed) (i : Nat) : Except LexError Token := f.items.getD i f.final

def drop (f : TokenFeed) : Nat → TokenFeed
  | 0 => f
  | n + 1 => (f.drop n).next.2

theorem next_fst (f : TokenFeed) : f.next.1 = f.item 0 := by
  unfold next item
  split <;> simp_all

theorem item_next_snd (f : TokenFeed) (i : Nat) : f.next.2.item i = f.item (i + 1) := by
  unfold next item
  split <;> simp_all

theorem size_next_snd (f : TokenFeed) : f.next.2.size = f.size - 1 := by
  have h := f.size_eq
  unfold next
  split <;> simp_all

theorem item_drop (f : TokenFeed) (n i : Nat) : (f.drop n).item i = f.item (i + n) := by
  induction n generalizing i with
  | zero => rfl
  | succ n ih => rw [drop, item_next_snd, ih, Nat.add_right_comm, Nat.add_assoc]

theorem size_drop (f : TokenFeed) (n : Nat) : (f.drop n).size = f.size - n := by
  induction n with
  | zero => rfl
  | succ n ih => rw [drop, size_next_snd, ih, Nat.sub_sub]

theorem next_drop_fst (f : TokenFeed) (n : Nat) : (f.drop n).next.1 = f.item n := by
  rw [next_fst, item_drop, Nat.zero_add]

def Faultless (f : TokenFeed) : Prop := ∀ i, ∃ t, f.item i = .ok t

/-- Up to its first fault, if there is one, the feed gives `r 0`, `r 1` and so on. -/
def Offers (f : TokenFeed) (r : Nat → Token) : Prop :=
  ∀ i, (∀ j, j ≤ i → ∃ t, f.item j = .ok t) → f.item i = .ok (r i)

/-- The feed gives the tokens `r 0`, `r 1` and so on, and never a fault. -/
def Delivers (f : TokenFeed) (r : Nat → Token) : Prop := ∀ i, f.item i = .ok (r i)

theorem Delivers.offers {f : TokenFeed} {r : Nat → Token} (h : f.Delivers r) : f.Offers r :=
  fun i _ => h i

theorem Delivers.faultless {f : TokenFeed} {r : Nat → Token} (h : f.Delivers r) : f.Faultless :=
  fun i => ⟨r i, h i⟩

/-- The items up to `i` have been read without a fault. -/
def Given (f : TokenFeed) (r : Nat → Token) (i : Nat) : Prop := ∀ j, j ≤ i → f.item j = .ok (r j)

theorem Given.next {f : TokenFeed} {r : Nat → Token} {i : Nat} {t : Token} (h : f.Given r i)
    (ho : f.Offers r) (ht : f.item (i + 1) = .ok t) : t = r (i + 1) ∧ f.Given r (i + 1) := by
  have hok : f.item (i + 1) = .ok (r (i + 1)) := by
    refine ho (i + 1) fun j hj => ?_
    by_cases hji : j ≤ i
    · exact ⟨r j, h j hji⟩
    · have : j = i + 1 := by omega
      exact ⟨t, this ▸ ht⟩
  refine ⟨?_, fun j hj => ?_⟩
  · rw [ht] at hok
    exact Except.ok.inj hok
  · by_cases hji : j ≤ i
    · exact h j hji
    · have : j = i + 1 := by omega
      rw [this, hok]

end TokenFeed

theorem Token.isJump_kind {t : Token} (h : t.isJump = true) : t.kind = .keyword := by
  simp only [isJump, isKeyword, Bool.or_eq_true, Bool.and_eq_true, beq_iff_eq] at h
  rcases h with ((h | h) | h) | h <;> exact h.1

/-- An operator lets the expression go on, so nothing is put in before `++`. -/
theorem needsSemicolon_plusPlus (last : Token) {next : Token}
    (h : next.isOperator "++" = true) : needsSemicolon last next = false := by
  have hk : next.kind = .operator := by
    simp only [Token.isOperator, Bool.and_eq_true, beq_iff_eq] at h
    exact h.1
  simp [needsSemicolon, Token.continues, hk]

/-- A keyword neither is a semicolon nor lets the expression go on, so only the
token behind it counts. -/
theorem needsSemicolon_eq (last next : Token) :
    needsSemicolon last next =
      (last.isJump && next.lineBreak && !next.isPunctuation ";" && !next.continues) := by
  by_cases hj : last.isJump = true
  · have hk := Token.isJump_kind hj
    have hs : last.isPunctuation ";" = false := by simp [Token.isPunctuation, hk]
    have hc : last.continues = false := by simp [Token.continues, Token.isPunctuation, hk]
    simp [needsSemicolon, hj, hs, hc]
  · by_cases hp : next.isOperator "++" = true
    · rw [needsSemicolon_plusPlus last hp]
      simp [hj]
    · simp [needsSemicolon, hj, hp]

theorem isJump_of_needsSemicolon {last next : Token} (h : needsSemicolon last next = true) :
    last.isJump = true := by
  rw [needsSemicolon_eq] at h
  simp only [Bool.and_eq_true] at h
  exact h.1.1.1

theorem ForHeader.track_of_inactive {h : ForHeader} (ha : h.active = false) (t : Token) :
    h.track t = if t.isKeyword "for" then { active := true } else h := by
  simp [track, ha]

/-- Outside a header a token may be tracked twice. -/
theorem ForHeader.track_track {h : ForHeader} (ha : h.active = false) (t : Token) :
    (h.track t).track t = h.track t := by
  by_cases hf : t.isKeyword "for" = true
  · simp [track, hf]
  · rw [track_of_inactive ha, if_neg hf, track_of_inactive ha, if_neg hf]

namespace Semicolons

variable (r : Nat → Token)

def headerAt (r : Nat → Token) : Nat → ForHeader
  | 0 => {}
  | n + 1 => (headerAt r n).track (r n)

/-- Whether a semicolon is put in between token `i` and the next. -/
def due (i : Nat) : Bool :=
  !(headerAt r (i + 1)).active && (r i).isJump && (r (i + 1)).lineBreak &&
    !(r (i + 1)).isPunctuation ";" && !(r (i + 1)).continues

theorem due_eq (i : Nat) :
    due r i = (!(headerAt r (i + 1)).active && needsSemicolon (r i) (r (i + 1))) := by
  simp [due, needsSemicolon_eq, Bool.and_assoc]

theorem due_iff (i : Nat) :
    due r i = true ↔
      (headerAt r (i + 1)).active = false ∧
      ((r i).kind = .keyword ∧ (r i).value ∈ ["continue", "break", "return", "throw"]) ∧
      (r (i + 1)).lineBreak = true ∧
      ¬ ((r (i + 1)).kind = .punctuation ∧ (r (i + 1)).value = ";") ∧
      (r (i + 1)).kind ≠ .operator ∧
      ¬ ((r (i + 1)).kind = .punctuation ∧ (r (i + 1)).value ∈ ["(", "[", "."]) := by
  have hj : (r i).isJump = true ↔
      (r i).kind = .keyword ∧ (r i).value ∈ ["continue", "break", "return", "throw"] := by
    simp only [Token.isJump, Token.isKeyword, Bool.or_eq_true, Bool.and_eq_true, beq_iff_eq,
      List.mem_cons, List.not_mem_nil, or_false]
    grind
  have hc : (r (i + 1)).continues = true ↔ (r (i + 1)).kind = .operator ∨
      ((r (i + 1)).kind = .punctuation ∧ (r (i + 1)).value ∈ ["(", "[", "."]) := by
    simp only [Token.continues, Token.isPunctuation, Bool.or_eq_true, Bool.and_eq_true, beq_iff_eq,
      List.mem_cons, List.not_mem_nil, or_false]
    grind
  have hs : (r (i + 1)).isPunctuation ";" = true ↔
      (r (i + 1)).kind = .punctuation ∧ (r (i + 1)).value = ";" := by
    simp [Token.isPunctuation]
  simp only [due, Bool.and_eq_true, Bool.not_eq_true', ← Bool.not_eq_true, hj, hc, hs]
  grind

/-! ## The corrected sequence -/

/-- A place in the corrected sequence: a token of the source, or the semicolon
before one. -/
inductive Place where
  | token (i : Nat)
  | semicolon (i : Nat)
deriving DecidableEq, Repr

def Place.next : Place → Place
  | token i => if due r i then semicolon (i + 1) else token (i + 1)
  | semicolon i => token i

def Place.read : Place → Token
  | token i => r i
  | semicolon i => .semicolonBefore (r i)

def place : Nat → Place
  | 0 => .token 0
  | k + 1 => (place k).next r

/-- The tokens of the source with the semicolons that are due. -/
def corrected (k : Nat) : Token := (place r k).read r

/-- The index of token `i` of the source in the corrected sequence. -/
def index : Nat → Nat
  | 0 => 0
  | i + 1 => index i + if due r i then 2 else 1

theorem place_index (i : Nat) : place r (index r i) = .token i := by
  induction i with
  | zero => rfl
  | succ i ih =>
    by_cases h : due r i = true
    · have hi : index r (i + 1) = index r i + 1 + 1 := by simp [index, h]
      rw [hi, place, place, ih]
      simp [Place.next, h]
    · have hi : index r (i + 1) = index r i + 1 := by simp [index, h]
      rw [hi, place, ih]
      simp [Place.next, h]

theorem corrected_index (i : Nat) : corrected r (index r i) = r i := by
  rw [corrected, place_index]
  rfl

theorem corrected_index_succ (i : Nat) :
    corrected r (index r i + 1) =
      if due r i then .semicolonBefore (r (i + 1)) else r (i + 1) := by
  rw [corrected, place, place_index]
  by_cases h : due r i = true
  · simp [Place.next, Place.read, h]
  · simp [Place.next, Place.read, h]

/-- What stands before index `k`. -/
def before : Nat → Option Token
  | 0 => none
  | k + 1 => some (corrected r k)

/-- The source `f` once the token at a place has been fetched: what is left of it
and the state of the header.  Behind a semicolon the token that called for it is
still to come, although the header has tracked it already. -/
def Behind (f : TokenFeed) (left : TokenFeed) (h : ForHeader) : Place → Prop
  | .token i => f.Given r i ∧ left = f.drop (i + 1) ∧ h = headerAt r (i + 1)
  | .semicolon i =>
    f.Given r i ∧ left = f.drop i ∧ h = headerAt r (i + 1) ∧ (headerAt r i).active = false

end Semicolons

namespace TokenStream

open Semicolons

variable {f : TokenFeed} {r : Nat → Token} {s s' : TokenStream} {k : Nat}

/-- The stream `s` over the source `f` stands at index `k` of the corrected
sequence. -/
inductive Stands (f : TokenFeed) (r : Nat → Token) : TokenStream → Nat → Prop where
  /-- Nothing has been fetched. -/
  | fresh : Stands f r (ofFeed f) 0
  | ready {s : TokenStream} {k : Nat} {c : Seen} (current : s.current = some c)
      (token : c.token = corrected r k) (previous : s.previous.map (·.token) = before r k)
      (peeked : s.peeked = none) (behind : Behind r f s.feed s.header (place r k)) : Stands f r s k
  | ahead {s : TokenStream} {k : Nat} {c p : Seen} (current : s.current = some c)
      (token : c.token = corrected r k) (previous : s.previous.map (·.token) = before r k)
      (peeked : s.peeked = some p) (next : p.token = corrected r (k + 1))
      (behind : Behind r f s.feed s.header (place r (k + 1))) : Stands f r s k

theorem token_followedBy (c : Seen) (t : Token) : (c.followedBy t).token = c.token := by
  unfold Seen.followedBy
  split <;> rfl

/-- What fetching makes of a stream whose source gives a token. -/
theorem fetch_run {next : Token} (h : s.feed.next.1 = .ok next) :
    fetch s =
      if s.semicolonDue next then
        .ok { token := .semicolonBefore next }
          { s with
            current := s.current.map fun c => c.followedBy next
            header := s.header.track next }
      else
        .ok { token := next }
          { s with
            feed := s.feed.next.2
            current := s.current.map fun c => c.followedBy next
            header := s.header.track next } := by
  obtain ⟨item, feed, hn⟩ : ∃ item feed, s.feed.next = (item, feed) := ⟨_, _, rfl⟩
  rw [hn] at h
  simp only at h
  subst h
  simp only [fetch, bind_run, get_run, hn]
  split <;> simp only [bind_run, set_run, pure_run]

theorem next_of_fetch {p : Seen} (h : fetch s = .ok p s') : ∃ next, s.feed.next.1 = .ok next := by
  obtain ⟨item, feed, hn⟩ : ∃ item feed, s.feed.next = (item, feed) := ⟨_, _, rfl⟩
  cases item with
  | ok next => exact ⟨next, by rw [hn]⟩
  | error e =>
    simp only [fetch, bind_run, get_run, hn, set_run, throw_run] at h
    cases h

theorem fetch_of_faultless (h : s.feed.Faultless) : ∃ p s', fetch s = .ok p s' := by
  obtain ⟨t, ht⟩ := h 0
  rw [fetch_run (by rw [TokenFeed.next_fst, ht])]
  split
  · exact ⟨_, _, rfl⟩
  · exact ⟨_, _, rfl⟩

/-- The first token is never preceded by a semicolon. -/
theorem fetch_fresh {p : Seen} (ho : f.Offers r) (h : fetch (ofFeed f) = .ok p s') :
    p = { token := corrected r 0 } ∧
      s' = { ofFeed f with feed := f.drop 1, header := headerAt r 1 } ∧
      Behind r f (f.drop 1) (headerAt r 1) (place r 0) := by
  obtain ⟨next, hn⟩ := next_of_fetch h
  have hitem : f.item 0 = .ok next := by
    rw [← TokenFeed.next_fst]
    exact hn
  have hzero : f.item 0 = .ok (r 0) := ho 0 fun j hj => ⟨next, by rwa [Nat.le_zero.1 hj]⟩
  rw [hzero] at hitem
  cases hitem
  rw [fetch_run hn] at h
  cases h
  refine ⟨rfl, rfl, fun j hj => ?_, rfl, rfl⟩
  rwa [Nat.le_zero.1 hj]

/-- Fetching behind index `k` gives the token at the next index and leaves the
current token and its neighbours as they are. -/
theorem fetch_behind {c p : Seen} (ho : f.Offers r) (hc : s.current = some c)
    (ht : c.token = corrected r k) (hb : Behind r f s.feed s.header (place r k))
    (h : fetch s = .ok p s') :
    ∃ left header c', p = { token := corrected r (k + 1) } ∧
      s' = { s with feed := left, header := header, current := some c' } ∧
      c'.token = corrected r k ∧ Behind r f left header (place r (k + 1)) := by
  obtain ⟨next, hn⟩ := next_of_fetch h
  cases hp : place r k with
  | token i =>
    rw [hp] at hb
    obtain ⟨hg, hleft, hh⟩ := hb
    have hi : c.token = r i := by rw [ht, corrected, hp, Place.read]
    obtain ⟨rfl, hg'⟩ := hg.next ho (by rw [← f.next_drop_fst, ← hleft, hn])
    have hdue : s.semicolonDue (r (i + 1)) = due r i := by
      simp only [semicolonDue, hc, hh, hi, due_eq]
    have htrack : s.header.track (r (i + 1)) = headerAt r (i + 2) := by
      rw [hh]
      rfl
    rw [fetch_run hn, hdue, htrack, hc] at h
    have hk : place r (k + 1) = Place.next r (.token i) := by rw [place, hp]
    by_cases hq : due r i = true
    · rw [if_pos hq] at h
      cases h
      have hk' : place r (k + 1) = .semicolon (i + 1) := by rw [hk, Place.next, if_pos hq]
      refine ⟨s.feed, headerAt r (i + 2), c.followedBy (r (i + 1)), ?_, rfl, ?_, ?_⟩
      · rw [corrected, hk']
        rfl
      · rw [token_followedBy, ht]
      · rw [hk']
        refine ⟨hg', hleft, rfl, ?_⟩
        simp only [due, Bool.and_eq_true, Bool.not_eq_true'] at hq
        exact hq.1.1.1.1
    · rw [if_neg hq] at h
      cases h
      have hk' : place r (k + 1) = .token (i + 1) := by rw [hk, Place.next, if_neg hq]
      refine ⟨s.feed.next.2, headerAt r (i + 2), c.followedBy (r (i + 1)), ?_, rfl, ?_, ?_⟩
      · rw [corrected, hk']
        rfl
      · rw [token_followedBy, ht]
      · rw [hk']
        exact ⟨hg', by rw [hleft]; rfl, rfl⟩
  | semicolon i =>
    rw [hp] at hb
    obtain ⟨hg, hleft, hh, ha⟩ := hb
    have hi : c.token = .semicolonBefore (r i) := by rw [ht, corrected, hp, Place.read]
    have hnext : next = r i := by
      have hitem := f.next_drop_fst i
      rw [← hleft, hn, hg i (Nat.le_refl i)] at hitem
      exact Except.ok.inj hitem
    subst hnext
    have hdue : s.semicolonDue (r i) = false := by
      simp [semicolonDue, hc, hi, needsSemicolon, Token.semicolonBefore, Token.isPunctuation]
    have htrack : s.header.track (r i) = headerAt r (i + 1) := by
      rw [hh, headerAt, ForHeader.track_track ha]
    rw [fetch_run hn, hdue, htrack, hc] at h
    cases h
    have hk' : place r (k + 1) = .token i := by rw [place, hp, Place.next]
    refine ⟨s.feed.next.2, headerAt r (i + 1), c.followedBy (r i), ?_, rfl, ?_, ?_⟩
    · rw [corrected, hk']
      rfl
    · rw [token_followedBy, ht]
    · rw [hk']
      exact ⟨hg, by rw [hleft]; rfl, rfl⟩

/-- What is left of a source without faults is without faults. -/
theorem Stands.faultless (h : Stands f r s k) (hf : f.Faultless) : s.feed.Faultless := by
  have hdrop : ∃ n, s.feed = f.drop n := by
    have hbehind : ∀ k, Behind r f s.feed s.header (place r k) → ∃ n, s.feed = f.drop n := by
      intro k hb
      cases hp : place r k with
      | token i =>
        rw [hp] at hb
        exact ⟨i + 1, hb.2.1⟩
      | semicolon i =>
        rw [hp] at hb
        exact ⟨i, hb.2.1⟩
    cases h with
    | fresh => exact ⟨0, rfl⟩
    | ready _ _ _ _ hb => exact hbehind k hb
    | ahead _ _ _ _ _ hb => exact hbehind (k + 1) hb
  obtain ⟨n, hn⟩ := hdrop
  intro i
  rw [hn, TokenFeed.item_drop]
  exact hf (i + n)

/-! ## Operations

For each operation one lemma says what it gives if it gives anything, and one
that it does not fail on a source without faults. -/

theorem currentSeen_stands {c : Seen} (ho : f.Offers r) (hs : Stands f r s k)
    (h : currentSeen s = .ok c s') :
    c.token = corrected r k ∧ s'.current = some c ∧ s'.previous = s.previous ∧
      Stands f r s' k := by
  cases hs with
  | fresh =>
    simp only [currentSeen, ofFeed, bind_eq_ok, get_run] at h
    obtain ⟨_, _, hget, h⟩ := h
    cases hget
    obtain ⟨p, s₁, hf, hm⟩ := bind_eq_ok.1 h
    obtain ⟨rfl, rfl, hb⟩ := fetch_fresh ho hf
    cases hm
    exact ⟨rfl, rfl, rfl, .ready rfl rfl rfl rfl hb⟩
  | @ready _ _ c₁ hc ht hp hn hb =>
    simp only [currentSeen, bind_run, get_run, hc, pure_run] at h
    cases h
    exact ⟨ht, hc, rfl, .ready hc ht hp hn hb⟩
  | @ahead _ _ c₁ p hc ht hp hn hq hb =>
    simp only [currentSeen, bind_run, get_run, hc, pure_run] at h
    cases h
    exact ⟨ht, hc, rfl, .ahead hc ht hp hn hq hb⟩

theorem currentSeen_of_faultless (hs : Stands f r s k) (hf : f.Faultless) :
    ∃ c s', currentSeen s = .ok c s' := by
  cases hc : s.current with
  | some c => exact ⟨c, s, by simp only [currentSeen, bind_run, get_run, hc, pure_run]⟩
  | none =>
    obtain ⟨c, s₁, hrun⟩ := fetch_of_faultless (hs.faultless hf)
    exact ⟨c, { s₁ with current := some c }, by
      simp only [currentSeen, bind_run, get_run, hc, hrun, modify_run, pure_run]⟩

theorem token_stands {t : Token} (ho : f.Offers r) (hs : Stands f r s k)
    (h : token s = .ok t s') :
    t = corrected r k ∧ s'.previous = s.previous ∧ Stands f r s' k := by
  obtain ⟨c, s₁, hrun, hp⟩ := bind_eq_ok.1 h
  cases hp
  obtain ⟨ht, -, hprev, hs'⟩ := currentSeen_stands ho hs hrun
  exact ⟨ht, hprev, hs'⟩

theorem token_of_faultless (hs : Stands f r s k) (hf : f.Faultless) :
    ∃ t s', token s = .ok t s' := by
  obtain ⟨c, s', hrun⟩ := currentSeen_of_faultless hs hf
  exact ⟨c.token, s', by rw [token, bind_run_ok hrun, pure_run]⟩

theorem peek_stands {t : Token} (ho : f.Offers r) (hs : Stands f r s k) (h : peek s = .ok t s') :
    t = corrected r (k + 1) ∧ s'.previous = s.previous ∧ Stands f r s' k := by
  obtain ⟨p, s₂, hpeek, hp⟩ := bind_eq_ok.1 h
  cases hp
  obtain ⟨c, s₁, hrun, hpeek⟩ := bind_eq_ok.1 hpeek
  obtain ⟨-, hc, hprev, hs₁⟩ := currentSeen_stands ho hs hrun
  rw [bind_run_ok (get_run s₁)] at hpeek
  cases hs₁ with
  | fresh => cases hc
  | @ready _ _ c₁ hc₁ ht₁ hp₁ hn hb =>
    simp only [hn] at hpeek
    obtain ⟨q, s₃, hf, hm⟩ := bind_eq_ok.1 hpeek
    obtain ⟨left, header, c', rfl, rfl, ht', hb'⟩ := fetch_behind ho hc₁ ht₁ hb hf
    cases hm
    exact ⟨rfl, hprev, .ahead rfl ht' hp₁ rfl rfl hb'⟩
  | @ahead _ _ c₁ q hc₁ ht₁ hp₁ hn hq hb =>
    simp only [hn] at hpeek
    cases hpeek
    exact ⟨hq, hprev, .ahead hc₁ ht₁ hp₁ hn hq hb⟩

theorem peek_of_faultless (ho : f.Offers r) (hs : Stands f r s k) (hf : f.Faultless) :
    ∃ t s', peek s = .ok t s' := by
  obtain ⟨c, s₁, hrun⟩ := currentSeen_of_faultless hs hf
  obtain ⟨-, -, -, hs₁⟩ := currentSeen_stands ho hs hrun
  rw [peek, peekSeen]
  cases hp : s₁.peeked with
  | some p => exact ⟨p.token, s₁, by simp only [bind_run, get_run, hrun, hp, pure_run]⟩
  | none =>
    obtain ⟨p, s₂, hfetch⟩ := fetch_of_faultless (hs₁.faultless hf)
    exact ⟨p.token, { s₂ with peeked := some p }, by
      simp only [bind_run, get_run, hrun, hp, hfetch, modify_run, pure_run]⟩

theorem advance_stands {t : Token} (ho : f.Offers r) (hs : Stands f r s k)
    (h : advance s = .ok t s') : t = corrected r (k + 1) ∧ Stands f r s' (k + 1) := by
  obtain ⟨p, s₂, hadvance, hp⟩ := bind_eq_ok.1 h
  cases hp
  obtain ⟨c, s₁, hrun, hadvance⟩ := bind_eq_ok.1 hadvance
  obtain ⟨-, hc, -, hs₁⟩ := currentSeen_stands ho hs hrun
  rw [bind_run_ok (get_run s₁)] at hadvance
  cases hs₁ with
  | fresh => cases hc
  | @ready _ _ c₁ hc₁ ht₁ hp₁ hn hb =>
    simp only [hn] at hadvance
    obtain ⟨q, s₃, hf, hm⟩ := bind_eq_ok.1 hadvance
    obtain ⟨left, header, c', rfl, rfl, ht', hb'⟩ := fetch_behind ho hc₁ ht₁ hb hf
    cases hm
    exact ⟨rfl, .ready rfl rfl (by simp [before, ht']) rfl hb'⟩
  | @ahead _ _ c₁ q hc₁ ht₁ hp₁ hn hq hb =>
    simp only [hn] at hadvance
    cases hadvance
    exact ⟨hq, .ready rfl hq (by simp [before, hc₁, ht₁]) rfl hb⟩

theorem advance_of_faultless (ho : f.Offers r) (hs : Stands f r s k) (hf : f.Faultless) :
    ∃ t s', advance s = .ok t s' := by
  obtain ⟨c, s₁, hrun⟩ := currentSeen_of_faultless hs hf
  obtain ⟨-, -, -, hs₁⟩ := currentSeen_stands ho hs hrun
  rw [advance, advanceSeen]
  cases hp : s₁.peeked with
  | some p =>
    exact ⟨p.token, { s₁ with previous := s₁.current, current := some p, peeked := none },
      by simp only [bind_run, get_run, hrun, hp, modify_run, pure_run]⟩
  | none =>
    obtain ⟨p, s₂, hfetch⟩ := fetch_of_faultless (hs₁.faultless hf)
    exact ⟨p.token, { s₂ with previous := s₂.current, current := some p, peeked := none },
      by simp only [bind_run, get_run, hrun, hp, hfetch, modify_run, pure_run]⟩

theorem previous_stands (h : Stands f r s k) : s.previous.map (·.token) = before r k := by
  cases h with
  | fresh => rfl
  | ready _ _ hp => exact hp
  | ahead _ _ hp => exact hp

/-- What a reader may ask of a stream. -/
inductive Request where
  | current
  | peek
  | previous
  | advance
  | expect (p : TokenPattern)

/-- The answer of a stream, and the stream behind it.  A failed request leaves a
stream as well. -/
def answered : EStateM.Result ReadError TokenStream Token →
    Except ReadError (Option Token) × TokenStream
  | .ok t s => (.ok (some t), s)
  | .error e s => (.error e, s)

def answer (s : TokenStream) : Request → Except ReadError (Option Token) × TokenStream
  | .current => answered (token s)
  | .peek => answered (peek s)
  | .previous => (.ok (s.previous.map (·.token)), s)
  | .advance => answered (advance s)
  | .expect p => answered (expect p s)

def answers (s : TokenStream) : List Request → List (Except ReadError (Option Token))
  | [] => []
  | q :: qs => (s.answer q).1 :: answers (s.answer q).2 qs

end TokenStream

namespace Semicolons

open TokenStream

/-- The answer of an index into a sequence, and the index behind it. -/
def answer (sequence : Nat → Token) (k : Nat) :
    Request → Except ReadError (Option Token) × Nat
  | .current => (.ok (some (sequence k)), k)
  | .peek => (.ok (some (sequence (k + 1))), k)
  | .previous => (.ok (if k = 0 then none else some (sequence (k - 1))), k)
  | .advance => (.ok (some (sequence (k + 1))), k + 1)
  | .expect p =>
    (if p.accepts (sequence k) then .ok (some (sequence k))
     else .error (.unexpected p (sequence k)), k)

def answers (sequence : Nat → Token) (k : Nat) :
    List Request → List (Except ReadError (Option Token))
  | [] => []
  | q :: qs => (answer sequence k q).1 :: answers sequence (answer sequence k q).2 qs

end Semicolons

namespace TokenStream

open Semicolons

/-- One request is answered alike and keeps the stream and the index together. -/
theorem answer_stands (hd : f.Delivers r) (h : Stands f r s k) (q : Request) :
    (s.answer q).1 = (Semicolons.answer (corrected r) k q).1 ∧
      Stands f r (s.answer q).2 (Semicolons.answer (corrected r) k q).2 := by
  have ho := hd.offers
  have hf := hd.faultless
  cases q with
  | current =>
    obtain ⟨t, s', hrun⟩ := token_of_faultless h hf
    obtain ⟨rfl, -, hs⟩ := token_stands ho h hrun
    simp only [answer, hrun, answered, Semicolons.answer]
    exact ⟨trivial, hs⟩
  | peek =>
    obtain ⟨t, s', hrun⟩ := peek_of_faultless ho h hf
    obtain ⟨rfl, -, hs⟩ := peek_stands ho h hrun
    simp only [answer, hrun, answered, Semicolons.answer]
    exact ⟨trivial, hs⟩
  | previous =>
    refine ⟨?_, h⟩
    simp only [answer, Semicolons.answer, previous_stands h]
    cases k with
    | zero => rfl
    | succ k => rfl
  | advance =>
    obtain ⟨t, s', hrun⟩ := advance_of_faultless ho h hf
    obtain ⟨rfl, hs⟩ := advance_stands ho h hrun
    simp only [answer, hrun, answered, Semicolons.answer]
    exact ⟨trivial, hs⟩
  | expect p =>
    obtain ⟨t, s', hrun⟩ := token_of_faultless h hf
    obtain ⟨rfl, -, hs⟩ := token_stands ho h hrun
    simp only [answer, expect, bind_run_ok hrun, Semicolons.answer]
    by_cases ha : p.accepts (corrected r k) = true
    · simp only [ha, if_true, pure_run, answered]
      exact ⟨trivial, hs⟩
    · simp only [ha, Bool.false_eq_true, if_false, throw_run, answered]
      exact ⟨trivial, hs⟩

theorem answers_stands (hd : f.Delivers r) (qs : List Request) (h : Stands f r s k) :
    s.answers qs = Semicolons.answers (corrected r) k qs := by
  induction qs generalizing s k with
  | nil => rfl
  | cons q qs ih =>
    obtain ⟨ha, hs⟩ := answer_stands hd h q
    rw [answers, Semicolons.answers, ha, ih hs]

/-- A stream over a source without faults is an index into the corrected
sequence, whatever is asked of it and in whatever order.  The equations for
`index` and `corrected` fix that sequence: the tokens of the source, and one
semicolon behind each token for which one is due. -/
theorem answers_eq_corrected {r : Nat → Token} {f : TokenFeed} (hf : f.Delivers r) :
    (∀ qs, (ofFeed f).answers qs = Semicolons.answers (corrected r) 0 qs) ∧
    (index r 0 = 0 ∧ ∀ i, index r (i + 1) = index r i + if due r i then 2 else 1) ∧
    (∀ i, corrected r (index r i) = r i) ∧
    (∀ i, due r i = true → corrected r (index r i + 1) =
      { kind := .punctuation
        value := ";"
        location :=
          { span := .empty (r (i + 1)).location.span.start
            position := (r (i + 1)).location.position }
        lineBreak := false
        inserted := true
        comments := [] }) ∧
    (∀ i, due r i = true ↔
      (headerAt r (i + 1)).active = false ∧
      ((r i).kind = .keyword ∧ (r i).value ∈ ["continue", "break", "return", "throw"]) ∧
      (r (i + 1)).lineBreak = true ∧
      ¬ ((r (i + 1)).kind = .punctuation ∧ (r (i + 1)).value = ";") ∧
      (r (i + 1)).kind ≠ .operator ∧
      ¬ ((r (i + 1)).kind = .punctuation ∧ (r (i + 1)).value ∈ ["(", "[", "."])) ∧
    (∀ last next, next.isOperator "++" = true → needsSemicolon last next = false) := by
  refine ⟨fun qs => answers_stands hf qs .fresh, ⟨rfl, fun i => rfl⟩,
    corrected_index r, ?_, ?_, ?_⟩
  · intro i hi
    rw [corrected_index_succ, if_pos hi]
    rfl
  · intro i
    rw [due_iff]
  · intro last next hp
    exact needsSemicolon_plusPlus last hp

/-- `return` and a name on the next line, asked for in a mixed order. -/
theorem answers_return_line :
    let back : Token := { kind := .keyword, value := "return" }
    let name : Token := { kind := .name, value := "x", lineBreak := true }
    let r : Nat → Token := fun i => if i = 0 then back else if i = 1 then name else { kind := .eof }
    (TokenFeed.ofTokens [back, name]).Delivers r ∧
      (ofFeed (.ofTokens [back, name])).answers [.peek, .advance, .peek, .advance, .previous] =
        [.ok (some (.semicolonBefore name)), .ok (some (.semicolonBefore name)), .ok (some name),
         .ok (some name), .ok (some (.semicolonBefore name))] := by
  intro back name r
  have hf : (TokenFeed.ofTokens [back, name]).Delivers r := by
    intro i
    match i with
    | 0 => rfl
    | 1 => rfl
    | i + 2 => rfl
  refine ⟨hf, ?_⟩
  rw [(answers_eq_corrected hf).1]
  rfl

end TokenStream
end ScriptOutline
