/-
Where a reader of scanned tokens stands.

`Semicolons.corrected r` is the sequence that a reader of the tokens `r` meets.  A
stream that has moved on along it has less left to read, so no repetition over it gets
stuck.  That holds up to an end of the input, `Inside`, of any source.
-/
import ScriptOutline.Proofs.Pairing
import ScriptOutline.Proofs.Scanning

namespace ScriptOutline

/-- Whoever reads beyond the size of the feed has been given an end of the input. -/
def TokenFeed.Ending (f : TokenFeed) (r : Nat → Token) : Prop :=
  ∀ i, f.Given r i → f.size ≤ i → ∃ j, j ≤ i ∧ (r j).isEof = true

namespace Semicolons

variable {f : TokenFeed} {r : Nat → Token} {k : Nat}

def Place.source : Place → Nat
  | token i => i
  | semicolon i => i

/-- What is left behind a place, as `TokenStream.remaining` counts it. -/
def Place.rank (f : TokenFeed) (r : Nat → Token) : Place → Nat
  | token i => 3 * (f.size - (i + 1)) + (r i).weight
  | semicolon i => 3 * (f.size - i) + 1

theorem weight_le (t : Token) : t.weight ≤ 2 := by
  unfold Token.weight
  split
  · omega
  · split <;> omega

theorem weight_of_eof {t : Token} (h : t.isEof = true) : t.weight = 0 := by
  simp [Token.weight, h]

theorem weight_pos {t : Token} (h : t.isEof = false) : 0 < t.weight := by
  rw [Token.weight, h]
  split
  · contradiction
  · split <;> omega

theorem source_le_succ (r : Nat → Token) (k : Nat) :
    (place r k).source ≤ (place r (k + 1)).source := by
  rw [place]
  cases place r k with
  | token i =>
    rw [Place.next]
    split <;> exact Nat.le_succ i
  | semicolon i => exact Nat.le_refl i

theorem source_mono (r : Nat → Token) {k k' : Nat} (h : k ≤ k') :
    (place r k).source ≤ (place r k').source := by
  induction h with
  | refl => exact Nat.le_refl _
  | step _ ih => exact Nat.le_trans ih (source_le_succ r _)

theorem given_mono {i j : Nat} (h : f.Given r j) (hij : i ≤ j) : f.Given r i :=
  fun n hn => h n (Nat.le_trans hn hij)

/-- Less is left behind the next place, unless the input ends here.  Beyond the size of
the feed there may be nothing but an end. -/
theorem rank_succ_lt
    (hend : ∀ i, i ≤ (place r (k + 1)).source → f.size ≤ i → (r i).isEof = true)
    (he : (corrected r k).isEof = false) :
    (place r (k + 1)).rank f r < (place r k).rank f r := by
  rw [corrected] at he
  rw [place] at hend ⊢
  cases hp : place r k with
  | token i =>
    rw [hp, Place.next] at hend
    rw [hp, Place.read] at he
    have hlt : i < f.size := by
      by_contra hle
      have heof : (r i).isEof = true := hend i (by split <;> exact Nat.le_succ i) (by omega)
      rw [he] at heof
      cases heof
    rw [Place.next]
    by_cases hd : due r i = true
    · have hw : (r i).weight = 2 := by
        simp only [due, Bool.and_eq_true] at hd
        simp [Token.weight, Token.isPutIn, he, Token.isPunctuation, Token.isJump_kind hd.1.1.1.2]
      rw [if_pos hd, Place.rank, Place.rank, hw]
      omega
    · rw [if_neg hd] at hend ⊢
      rw [Place.rank, Place.rank]
      have hnext := weight_le (r (i + 1))
      have hpos := weight_pos he
      by_cases hle : f.size ≤ i + 1
      · have hzero := weight_of_eof (hend (i + 1) (Nat.le_refl _) hle)
        omega
      · omega
  | semicolon i =>
    rw [hp, Place.next] at hend
    rw [Place.next, Place.rank, Place.rank]
    have hi := weight_le (r i)
    by_cases hle : f.size ≤ i
    · have hzero := weight_of_eof (hend i (Nat.le_refl _) hle)
      omega
    · omega

/-- No end of the input stands before index `k`. -/
def Inside (r : Nat → Token) (k : Nat) : Prop := ∀ j, j < k → (corrected r j).isEof = false

theorem Inside.mono {j : Nat} (h : Inside r k) (hj : j ≤ k) : Inside r j :=
  fun i hi => h i (Nat.lt_of_lt_of_le hi hj)

theorem Inside.succ (h : Inside r k) (he : (corrected r k).isEof = false) : Inside r (k + 1) := by
  intro j hj
  rcases Nat.lt_succ_iff_lt_or_eq.1 hj with hlt | rfl
  · exact h j hlt
  · exact he

theorem inside_zero (r : Nat → Token) : Inside r 0 := fun _ hj => absurd hj (Nat.not_lt_zero _)

/-- Nor does one stand among the tokens of the source up to there. -/
theorem Inside.raw (h : Inside r k) : ∀ j, j < (place r k).source → (r j).isEof = false := by
  induction k with
  | zero => exact fun j hj => absurd hj (Nat.not_lt_zero j)
  | succ k ih =>
    have hbefore := ih (h.mono (Nat.le_succ k))
    have hlast : (corrected r k).isEof = false := h k (Nat.lt_succ_self k)
    rw [corrected] at hlast
    rw [place]
    cases hp : place r k with
    | token i =>
      rw [hp] at hbefore hlast
      have hsource : (Place.next r (.token i)).source = i + 1 := by
        rw [Place.next]
        split <;> rfl
      intro j hj
      rw [hsource] at hj
      rcases Nat.lt_succ_iff_lt_or_eq.1 hj with hlt | rfl
      · exact hbefore j hlt
      · exact hlast
    | semicolon i =>
      rw [hp] at hbefore
      exact hbefore

/-- So beyond the size of the feed there can be nothing but an end. -/
theorem Inside.eof_of_size_le (h : Inside r k) (hf : f.Ending r)
    (hg : f.Given r (place r k).source) :
    ∀ i, i ≤ (place r k).source → f.size ≤ i → (r i).isEof = true := by
  intro i hi hsize
  obtain ⟨j, hj, he⟩ := hf i (given_mono hg hi) hsize
  by_cases hji : j < (place r k).source
  · rw [h.raw j hji] at he
    cases he
  · have hij : j = i := by omega
    rw [← hij]
    exact he

end Semicolons

namespace TokenStream

open Semicolons

variable {f : TokenFeed} {r : Nat → Token} {s s' : TokenStream} {k k' : Nat}

/-- The stream stands at index `k`, and has looked ahead only if there is something
ahead. -/
structure At (f : TokenFeed) (r : Nat → Token) (k : Nat) (s : TokenStream) : Prop where
  stands : Stands f r s k
  ahead : s.peeked ≠ none → (corrected r k).isEof = false

theorem Behind.given {left : TokenFeed} {h : ForHeader} {p : Place} (hb : Behind r f left h p) :
    f.Given r p.source := by
  cases p with
  | token i => exact hb.1
  | semicolon i => exact hb.1

theorem rank_of_behind {left : TokenFeed} {h : ForHeader} {p : Place}
    (hb : Behind r f left h p) : 3 * left.size + (p.read r).weight = p.rank f r := by
  cases p with
  | token i =>
    rw [hb.2.1, TokenFeed.size_drop]
    rfl
  | semicolon i =>
    rw [hb.2.1, TokenFeed.size_drop]
    rfl

theorem remaining_ready {c : Seen} (hc : s.current = some c) (ht : c.token = corrected r k)
    (hp : s.peeked = none) (hb : Behind r f s.feed s.header (place r k)) :
    s.remaining = (place r k).rank f r := by
  rw [remaining, hp, hc, ← rank_of_behind hb]
  show _ + c.token.weight = _
  rw [ht]
  rfl

theorem remaining_ahead {p : Seen} (hp : s.peeked = some p) (ht : p.token = corrected r (k + 1))
    (hb : Behind r f s.feed s.header (place r (k + 1))) :
    s.remaining = (place r (k + 1)).rank f r + 1 := by
  rw [remaining, hp, ← rank_of_behind hb]
  show _ + (p.token.weight + 1) = _
  rw [ht]
  rfl

theorem At.given (h : At f r k s) (hk : 0 < k) : f.Given r (place r k).source := by
  cases h.stands with
  | fresh => omega
  | ready _ _ _ _ hb => exact Behind.given hb
  | ahead _ _ _ _ _ hb => exact given_mono (Behind.given hb) (source_le_succ r k)

/-- What is left of a stream that has moved is at most what is left behind its place. -/
theorem At.remaining_le (h : At f r k s) (hk : 0 < k)
    (hstep : (corrected r k).isEof = false → f.Given r (place r (k + 1)).source →
      (place r (k + 1)).rank f r < (place r k).rank f r) :
    s.remaining ≤ (place r k).rank f r := by
  cases h.stands with
  | fresh => omega
  | ready hc ht _ hp hb => exact Nat.le_of_eq (remaining_ready hc ht hp hb)
  | ahead hc ht _ hp hn hb =>
    rw [remaining_ahead hp hn hb]
    exact hstep (h.ahead (by rw [hp]; exact Option.some_ne_none _)) (Behind.given hb)

/-- More is left of a stream than behind the next place. -/
theorem At.lt_remaining (h : At f r k s) (hsize : k = 0 → 0 < f.size)
    (hstep : (place r (k + 1)).rank f r < (place r k).rank f r) :
    (place r (k + 1)).rank f r < s.remaining := by
  cases h.stands with
  | fresh =>
    have hsize := hsize rfl
    have hw := weight_le (r 0)
    have hrank : (place r 0).rank f r = 3 * (f.size - 1) + (r 0).weight := rfl
    show _ < 3 * f.size + 0
    omega
  | ready hc ht _ hp hb =>
    rw [remaining_ready hc ht hp hb]
    exact hstep
  | ahead hc ht _ hp hn hb =>
    rw [remaining_ahead hp hn hb]
    exact Nat.lt_succ_self _

/-- A stream that has not passed an end of the input has less left to read once it has
moved on. -/
theorem remaining_lt_inside (hf : f.Ending r) (h : At f r k s) (h' : At f r k' s') (hk : k < k')
    (hin : Inside r k') : s'.remaining < s.remaining := by
  have hg' := h'.given (Nat.zero_lt_of_lt hk)
  have hstep {j : Nat} (hj : Inside r (j + 1)) (hg : f.Given r (place r (j + 1)).source) :
      (place r (j + 1)).rank f r < (place r j).rank f r :=
    rank_succ_lt (hj.eof_of_size_le hf hg) (hj j (Nat.lt_succ_self j))
  have hmono : ∀ j, k + 1 ≤ j → j ≤ k' → (place r j).rank f r ≤ (place r (k + 1)).rank f r := by
    intro j hkj
    induction j, hkj using Nat.le_induction with
    | base => exact fun _ => Nat.le_refl _
    | succ j hkj ih =>
      intro hj
      have hlt := hstep (hin.mono hj) (given_mono hg' (source_mono r hj))
      have hle := ih (by omega)
      omega
  have hfirst := hstep (hin.mono hk) (given_mono hg' (source_mono r hk))
  have hupper := h'.remaining_le (Nat.zero_lt_of_lt hk) fun he hg => hstep (hin.succ he) hg
  have hlower : (place r (k + 1)).rank f r < s.remaining := by
    refine h.lt_remaining ?_ hfirst
    rintro rfl
    by_contra hle
    have heof := (hin.mono hk).eof_of_size_le hf (given_mono hg' (source_mono r hk)) 0
      (Nat.zero_le _) (by omega)
    have hfalse := (hin.mono hk) 0 (Nat.zero_lt_one)
    rw [show corrected r 0 = r 0 from rfl, heof] at hfalse
    cases hfalse
  have hmid := hmono k' hk (Nat.le_refl k')
  omega

/-! ## Operations -/

theorem peeked_of_fetch {p : Seen} (h : fetch s = .ok p s') : s'.peeked = s.peeked := by
  obtain ⟨next, hn⟩ := next_of_fetch h
  rw [fetch_run hn] at h
  split at h
  · cases h
    rfl
  · cases h
    rfl

theorem peeked_of_token {t : Token} (h : token s = .ok t s') : s'.peeked = s.peeked := by
  obtain ⟨c, s₁, hrun, hp⟩ := bind_eq_ok.1 h
  cases hp
  rw [currentSeen, bind_run_ok (get_run s)] at hrun
  cases hc : s.current with
  | some c =>
    rw [hc] at hrun
    cases hrun
    rfl
  | none =>
    rw [hc] at hrun
    obtain ⟨p, s₂, hf, hm⟩ := bind_eq_ok.1 hrun
    cases hm
    have hpeeked : s₂.peeked = s.peeked := peeked_of_fetch hf
    exact hpeeked

theorem peeked_of_advance {t : Token} (h : advance s = .ok t s') : s'.peeked = none := by
  obtain ⟨c, s₁, hrun, hp⟩ := bind_eq_ok.1 h
  cases hp
  obtain ⟨c₁, s₂, -, hrun⟩ := bind_eq_ok.1 hrun
  rw [bind_run_ok (get_run s₂)] at hrun
  cases hp : s₂.peeked with
  | some p =>
    simp only [hp] at hrun
    cases hrun
    rfl
  | none =>
    simp only [hp] at hrun
    obtain ⟨p, s₃, -, hm⟩ := bind_eq_ok.1 hrun
    cases hm
    rfl

theorem At.token {t : Token} (hf : f.Offers r) (h : At f r k s) (hrun : token s = .ok t s') :
    t = corrected r k ∧ At f r k s' := by
  obtain ⟨ht, -, hs⟩ := token_stands hf h.stands hrun
  refine ⟨ht, hs, ?_⟩
  rw [peeked_of_token hrun]
  exact h.ahead

theorem At.peek {t : Token} (hf : f.Offers r) (h : At f r k s)
    (he : (corrected r k).isEof = false) (hrun : peek s = .ok t s') :
    t = corrected r (k + 1) ∧ At f r k s' := by
  obtain ⟨ht, -, hs⟩ := peek_stands hf h.stands hrun
  exact ⟨ht, hs, fun _ => he⟩

theorem At.advance {t : Token} (hf : f.Offers r) (h : At f r k s) (hrun : advance s = .ok t s') :
    t = corrected r (k + 1) ∧ At f r (k + 1) s' := by
  obtain ⟨ht, hs⟩ := advance_stands hf h.stands hrun
  refine ⟨ht, hs, ?_⟩
  rw [peeked_of_advance hrun]
  exact fun hne => absurd rfl hne

theorem fetch_fault {e : ReadError} (h : fetch s = .error e s') :
    ∃ left, s' = { s with feed := left } := by
  cases hn : s.feed.next.1 with
  | ok t =>
    rw [fetch_run hn] at h
    split at h <;> cases h
  | error e =>
    rw [Pairing.fetch_of_error hn] at h
    cases h
    exact ⟨_, rfl⟩

theorem fetch_of_token_error {e : ReadError} (h : token s = .error e s') :
    fetch s = .error e s' := by
  rcases bind_eq_error.1 h with hc | ⟨_, _, _, hc⟩
  · exact (Pairing.currentSeen_of_error hc).2
  · cases hc

theorem token_fault {e : ReadError} (h : token s = .error e s') :
    ∃ left, s' = { s with feed := left } := fetch_fault (fetch_of_token_error h)

theorem token_of_currentSeen {c : Seen} (h : currentSeen s = .ok c s') :
    token s = .ok c.token s' ∧ s'.current = some c :=
  ⟨by rw [token, bind_run_ok h, pure_run], Pairing.current_of_currentSeen h⟩

/-- Looking and moving ahead fail in a fetch, at the current token or behind it. -/
theorem fetch_of_error {e : ReadError} (h : peek s = .error e s' ∨ advance s = .error e s') :
    ∃ s₁, (s₁ = s ∨ ∃ t, token s = .ok t s₁) ∧ fetch s₁ = .error e s' := by
  have hseen : peekSeen s = .error e s' ∨ advanceSeen s = .error e s' := by
    refine h.imp (fun h => ?_) fun h => ?_
    · rcases bind_eq_error.1 h with h | ⟨_, _, _, h⟩
      · exact h
      · cases h
    · rcases bind_eq_error.1 h with h | ⟨_, _, _, h⟩
      · exact h
      · cases h
  cases hc : currentSeen s with
  | error d s₁ =>
    refine ⟨s, .inl rfl, ?_⟩
    rw [peekSeen, advanceSeen, bind_run, bind_run, hc] at hseen
    cases or_self_iff.1 hseen
    exact (Pairing.currentSeen_of_error hc).2
  | ok c s₁ =>
    obtain ⟨htoken, hcurrent⟩ := token_of_currentSeen hc
    refine ⟨s₁, .inr ⟨_, htoken⟩, ?_⟩
    rw [Pairing.peekSeen_looked hc, Pairing.advanceSeen_looked hc] at hseen
    rcases hseen with h | h
    · exact (Pairing.peekSeen_of_error hcurrent h).2
    · exact (Pairing.advanceSeen_of_error hcurrent h).2

/-- Looking and moving ahead fail at the current token or behind it. -/
theorem fault_behind {e : ReadError} (h : peek s = .error e s' ∨ advance s = .error e s') :
    ∃ s₁ left, (s₁ = s ∨ ∃ t, token s = .ok t s₁) ∧ s' = { s₁ with feed := left } := by
  obtain ⟨s₁, hs₁, hf⟩ := fetch_of_error h
  obtain ⟨left, hleft⟩ := fetch_fault hf
  exact ⟨s₁, left, hs₁, hleft⟩

/-- The stream stands at index `k`, and no end of the input stands before it. -/
structure Arrived (f : TokenFeed) (r : Nat → Token) (k : Nat) (s : TokenStream) : Prop where
  at_ : At f r k s
  inside : Inside r k

/-- The stream stands before an end of the input or at one, but for what a fault has done
to its source. -/
def Halted (f : TokenFeed) (r : Nat → Token) (s : TokenStream) : Prop :=
  ∃ k left, Arrived f r k { s with feed := left }

theorem Arrived.halted (h : Arrived f r k s) : Halted f r s := ⟨k, s.feed, h⟩

theorem Arrived.fault (h : Arrived f r k s) (left : TokenFeed) :
    Halted f r { s with feed := left } := ⟨k, s.feed, h⟩

theorem token_runs (hf : f.Offers r) (k : Nat) :
    Runs (Arrived f r k) token (fun t s => t = corrected r k ∧ Arrived f r k s) (Halted f r) := by
  intro s hs
  cases hrun : token s with
  | ok t s' =>
    obtain ⟨ht, hat⟩ := hs.at_.token hf hrun
    exact ⟨ht, hat, hs.inside⟩
  | error e s' =>
    obtain ⟨left, rfl⟩ := token_fault hrun
    exact hs.fault left

theorem halted_of_fault {e : ReadError} (hf : f.Offers r) (hs : Arrived f r k s)
    (h : peek s = .error e s' ∨ advance s = .error e s') : Halted f r s' := by
  obtain ⟨s₁, left, hs₁, rfl⟩ := fault_behind h
  rcases hs₁ with rfl | ⟨t, htoken⟩
  · exact hs.fault left
  · exact Arrived.fault ⟨(hs.at_.token hf htoken).2, hs.inside⟩ left

theorem peek_runs (hf : f.Offers r) (he : (corrected r k).isEof = false) :
    Runs (Arrived f r k) peek (fun t s => t = corrected r (k + 1) ∧ Arrived f r k s)
      (Halted f r) := by
  intro s hs
  cases hrun : peek s with
  | ok t s' =>
    obtain ⟨ht, hat⟩ := hs.at_.peek hf he hrun
    exact ⟨ht, hat, hs.inside⟩
  | error e s' => exact halted_of_fault hf hs (.inl hrun)

theorem advance_runs (hf : f.Offers r) (he : (corrected r k).isEof = false) :
    Runs (Arrived f r k) advance (fun t s => t = corrected r (k + 1) ∧ Arrived f r (k + 1) s)
      (Halted f r) := by
  intro s hs
  cases hrun : advance s with
  | ok t s' =>
    obtain ⟨ht, hat⟩ := hs.at_.advance hf hrun
    exact ⟨ht, hat, hs.inside.succ he⟩
  | error e s' => exact halted_of_fault hf hs (.inr hrun)

theorem expect_runs (hf : f.Offers r) (p : TokenPattern) (k : Nat) :
    Runs (Arrived f r k) (expect p)
      (fun t s => (t = corrected r k ∧ p.accepts t = true) ∧ Arrived f r k s) (Halted f r) := by
  refine (token_runs hf k).bind fun t => .assume fun ht => .ite (fun haccepts => ?_) fun _ => ?_
  · exact .pure fun s hs => ⟨⟨ht, haccepts⟩, hs⟩
  · exact .throw fun s hs => hs.halted

end TokenStream

end ScriptOutline
