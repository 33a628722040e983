/-
Advancing over tokens.

`Passes s ts s'` says that advancing over the tokens `ts` leads from the stream `s` to `s'`.  It
is said of any stream, whatever has been read from it before, and of tokens that the
reader has yet to meet.  Over a source that ends there is less to read behind each token that
is passed, and an operation that fails does so where it fetches.
-/
import ScriptOutline.Proofs.Gives

namespace ScriptOutline

/-- Behind its items the source gives ends of the input or faults, and nothing else. -/
def TokenFeed.Ends (f : TokenFeed) : Prop := ∀ t, f.final = .ok t → t.isEof = true

theorem TokenFeed.Ends.next {f : TokenFeed} (h : f.Ends) : f.next.2.Ends := by
  cases hi : f.items with
  | nil =>
    rw [next_of_nil hi]
    exact h
  | cons item items =>
    unfold Ends
    rw [(next_of_cons hi).2.2]
    exact h

theorem TokenFeed.Ends.drop {f : TokenFeed} (h : f.Ends) (n : Nat) : (f.drop n).Ends := by
  induction n with
  | zero => exact h
  | succ n ih => exact ih.next

theorem TokenFeed.final_ofLexer [IdentifierTable] (l : Lexer) :
    ∃ l' : Lexer, (ofLexer l).final = l'.next.1 ∧ ¬ l'.cursor.offset < l'.next.2.cursor.offset := by
  fun_induction ofLexer l with
  | case1 l step hmove ih => exact ih
  | case2 l step hstay => exact ⟨l, rfl, hstay⟩

/-- Scanning a text comes to its end or to a fault that stays. -/
theorem TokenFeed.ends_ofText [IdentifierTable] (text : String) : (ofText text).Ends := by
  intro t ht
  obtain ⟨l', hfinal, hstay⟩ := final_ofLexer (Lexer.ofText text)
  have hnext : l'.next.1 = .ok t := hfinal.symm.trans ht
  cases he : t.isEof with
  | true => rfl
  | false => exact absurd (Lexer.offset_lt_next hnext he) hstay

theorem TokenFeed.ends_ofTokens (tokens : List Token) : (ofTokens tokens).Ends := by
  intro t ht
  rw [final_ofTokens] at ht
  cases ht
  rfl

namespace TokenStream

open Semicolons

variable {s s' s₁ s₂ : TokenStream} {t u : Token} {ts us : List Token} {p : TokenPattern}

/-- Advancing over the tokens leads from the first stream to the second. -/
inductive Passes : TokenStream → List Token → TokenStream → Prop where
  | nil {s : TokenStream} : Passes s [] s
  | cons {s s₁ s₂ s' : TokenStream} {t u : Token} {ts : List Token}
    (current : token s = .ok t s₁) (next : advance s₁ = .ok u s₂) (rest : Passes s₂ ts s') :
    Passes s (t :: ts) s'

theorem Passes.append (h : Passes s ts s₁) (h' : Passes s₁ us s') : Passes s (ts ++ us) s' := by
  induction h with
  | nil => exact h'
  | cons current next _ ih => exact .cons current next (ih h')

theorem Passes.split (h : Passes s (ts ++ us) s') : ∃ s₁, Passes s ts s₁ ∧ Passes s₁ us s' := by
  induction ts generalizing s with
  | nil => exact ⟨s, .nil, h⟩
  | cons t ts ih =>
    cases h with
    | cons current next rest =>
      obtain ⟨s₁, hts, hus⟩ := ih rest
      exact ⟨s₁, .cons current next hts, hus⟩

/-- It does not matter whether the first token has been looked at. -/
theorem Passes.looked (h : Passes s (t :: ts) s') (ht : token s = .ok u s₁) :
    u = t ∧ Shows t s₁ ∧ Passes s₁ (t :: ts) s' := by
  cases h with
  | cons current next rest =>
    rw [ht] at current
    cases current
    have hshows := token_shows ht
    exact ⟨rfl, hshows, .cons (token_of_shows hshows) next rest⟩

theorem Passes.unlooked (h : Passes s₁ (t :: ts) s') (ht : token s = .ok t s₁) :
    Passes s (t :: ts) s' := by
  cases h with
  | cons current next rest =>
    rw [token_of_shows (token_shows ht)] at current
    cases current
    exact .cons ht next rest

/-- The stream has been looked at, so that looking again does not change it. -/
def Begun (s : TokenStream) : Prop := ∃ t, Shows t s

theorem Passes.begun (h : Passes s ts s') (hs : s.Begun) : s'.Begun := by
  induction h with
  | nil => exact hs
  | cons _ next _ ih => exact ih ⟨_, advance_shows next⟩

theorem Passes.begun_cons (h : Passes s (t :: ts) s') : s'.Begun := by
  cases h with
  | cons _ next rest => exact rest.begun ⟨_, advance_shows next⟩

theorem token_of_advance (h : advance s = .ok u s') :
    ∃ t s₁, token s = .ok t s₁ ∧ advance s₁ = .ok u s' := by
  obtain ⟨p, s₂, hrun, hp⟩ := bind_eq_ok.1 h
  obtain ⟨c, s₁, hc, -⟩ := bind_eq_ok.1 hrun
  refine ⟨c.token, s₁, (token_of_currentSeen hc).1, ?_⟩
  rw [Pairing.advanceSeen_looked hc] at hrun
  exact bind_eq_ok.2 ⟨p, s₂, hrun, hp⟩

theorem passes_of_advance (h : advance s = .ok u s') : ∃ t, Passes s [t] s' := by
  obtain ⟨t, s₁, htoken, hnext⟩ := token_of_advance h
  exact ⟨t, .cons htoken hnext .nil⟩

/-- Looking at the current token first makes no difference to moving on. -/
theorem advance_looked (h : token s = .ok t s₁) : advance s = advance s₁ := by
  obtain ⟨c, s₂, hc, hp⟩ := bind_eq_ok.1 h
  cases hp
  rw [advance, bind_run, bind_run, Pairing.advanceSeen_looked hc]

theorem expect_opening (h : expect .opening s = .ok t s') :
    token s = .ok t s' ∧ t.isOpening = true := by
  obtain ⟨u, s₁, htoken, h⟩ := bind_eq_ok.1 h
  split at h
  · rename_i haccepts
    cases h
    exact ⟨htoken, isOpening_of_accepts haccepts⟩
  · cases h

theorem expect_of_isOpening (h : token s = .ok t s') (ht : t.isOpening = true) :
    expect .opening s = .ok t s' := by
  rw [expect, bind_run_ok h, if_pos (accepts_of_isOpening ht)]
  rfl

theorem ends_of_fetch {c : Seen} (hf : s.feed.Ends) (h : fetch s = .ok c s') : s'.feed.Ends := by
  obtain ⟨next, hn⟩ := next_of_fetch h
  rw [fetch_run hn] at h
  split at h
  · cases h
    exact hf
  · cases h
    exact hf.next

theorem ends_of_token (hf : s.feed.Ends) (h : token s = .ok t s') : s'.feed.Ends := by
  obtain ⟨c, s₁, hrun, hp⟩ := bind_eq_ok.1 h
  cases hp
  rcases Pairing.currentSeen_of_ok hrun with ⟨-, rfl⟩ | ⟨-, s₂, hfetch, rfl⟩
  · exact hf
  · show s₂.feed.Ends
    exact ends_of_fetch hf hfetch

theorem ends_of_advance (hf : s.feed.Ends) (hs : Shows t s) (h : advance s = .ok u s') :
    s'.feed.Ends := by
  obtain ⟨c, hc, -, -⟩ := currentSeen_of_shows hs
  obtain ⟨p, s₁, hrun, hp⟩ := bind_eq_ok.1 h
  cases hp
  rcases Pairing.advanceSeen_of_ok hc hrun with ⟨-, rfl⟩ | ⟨-, s₂, hfetch, rfl⟩
  · exact hf
  · show s₂.feed.Ends
    exact ends_of_fetch hf hfetch

theorem fetch_lt {c p : Seen} (hf : s.feed.Ends) (hc : s.current = some c)
    (he : c.token.isEof = false) (h : fetch s = .ok p s') :
    3 * s'.feed.size + p.token.weight < 3 * s.feed.size + c.token.weight ∧ s'.feed.Ends := by
  obtain ⟨next, hn⟩ := next_of_fetch h
  rw [fetch_run hn] at h
  split at h
  · rename_i hdue
    cases h
    have hjump : c.token.isJump = true := by
      simp only [semicolonDue, hc, Bool.and_eq_true] at hdue
      exact isJump_of_needsSemicolon hdue.2
    have hweight : c.token.weight = 2 := by
      simp [Token.weight, Token.isPutIn, he, Token.isPunctuation, Token.isJump_kind hjump]
    refine ⟨?_, hf⟩
    rw [hweight]
    exact Nat.add_lt_add_left (Nat.lt_succ_self 1) _
  · cases h
    refine ⟨?_, hf.next⟩
    have hpos := weight_pos he
    have hle := weight_le next
    cases hi : s.feed.items with
    | nil =>
      rw [TokenFeed.next_of_nil hi] at hn ⊢
      rw [weight_of_eof (hf next hn)]
      exact Nat.add_lt_add_left hpos _
    | cons item items =>
      have hsize : s.feed.size = items.length + 1 := by rw [s.feed.size_eq, hi, List.length_cons]
      have hsize' : s.feed.next.2.size = items.length := by
        rw [TokenFeed.size_next_snd, hsize, Nat.add_sub_cancel]
      show 3 * s.feed.next.2.size + next.weight < 3 * s.feed.size + c.token.weight
      omega

/-- Moving past a token that is not the end of the input leaves less to read. -/
theorem advance_lt (hf : s.feed.Ends) (hs : Shows t s) (he : t.isEof = false)
    (h : advance s = .ok u s') : s'.remaining < s.remaining ∧ s'.feed.Ends := by
  obtain ⟨c, hc, rfl, -⟩ := currentSeen_of_shows hs
  obtain ⟨p, s₁, hrun, hp⟩ := bind_eq_ok.1 h
  cases hp
  rcases Pairing.advanceSeen_of_ok hc hrun with ⟨hpeeked, rfl⟩ | ⟨hpeeked, s₂, hfetch, rfl⟩
  · refine ⟨?_, hf⟩
    simp only [remaining, hpeeked]
    exact Nat.lt_succ_self _
  · obtain ⟨hlt, hends⟩ := fetch_lt hf hc he hfetch
    refine ⟨?_, hends⟩
    simp only [remaining, hpeeked, hc]
    exact hlt

theorem Passes.remaining_le (h : Passes s ts s') (hf : s.feed.Ends) (hs : s.Begun)
    (he : ∀ t ∈ ts, t.isEof = false) : s'.remaining ≤ s.remaining ∧ s'.feed.Ends := by
  induction h with
  | nil => exact ⟨Nat.le_refl _, hf⟩
  | @cons s s₁ s₂ s' t u ts current next _ ih =>
    obtain ⟨v, hv⟩ := hs
    rw [token_of_shows hv] at current
    cases current
    obtain ⟨ht, hts⟩ := List.forall_mem_cons.1 he
    obtain ⟨hlt, hf'⟩ := advance_lt hf hv ht next
    obtain ⟨hle, hends⟩ := ih hf' ⟨u, advance_shows next⟩ hts
    exact ⟨Nat.le_trans hle (Nat.le_of_lt hlt), hends⟩

theorem Passes.remaining_lt (h : Passes s (t :: ts) s') (hf : s.feed.Ends) (hs : s.Begun)
    (he : ∀ u ∈ t :: ts, u.isEof = false) : s'.remaining < s.remaining := by
  cases h with
  | cons current next rest =>
    obtain ⟨v, hv⟩ := hs
    rw [token_of_shows hv] at current
    cases current
    obtain ⟨ht, hts⟩ := List.forall_mem_cons.1 he
    obtain ⟨hlt, hf'⟩ := advance_lt hf hv ht next
    exact Nat.lt_of_le_of_lt (rest.remaining_le hf' ⟨_, advance_shows next⟩ hts).1 hlt

theorem lexical_of_fetch {e : ReadError} (h : fetch s = .error e s') :
    e.fault ≠ .nestingTooDeep := by
  cases hn : s.feed.next.1 with
  | ok t =>
    rw [fetch_run hn] at h
    split at h <;> cases h
  | error d =>
    rw [Pairing.fetch_of_error hn] at h
    cases h
    exact fun hfault => ReadFault.noConfusion hfault

theorem lexical_of_token {e : ReadError} (h : token s = .error e s') :
    e.fault ≠ .nestingTooDeep := lexical_of_fetch (fetch_of_token_error h)

theorem lexical_of_advance {e : ReadError} (h : advance s = .error e s') :
    e.fault ≠ .nestingTooDeep := by
  obtain ⟨s₁, -, hfetch⟩ := fetch_of_error (.inr h)
  exact lexical_of_fetch hfetch

theorem lexical_of_expect {e : ReadError} (h : expect p s = .error e s') :
    e.fault ≠ .nestingTooDeep := by
  rcases bind_eq_error.1 h with h | ⟨u, s₁, _, h⟩
  · exact lexical_of_token h
  · split at h
    · cases h
    · cases h
      unfold ReadError.unexpected
      split
      · exact fun hfault => ReadFault.noConfusion hfault
      · exact fun hfault => ReadFault.noConfusion hfault

end TokenStream

end ScriptOutline
