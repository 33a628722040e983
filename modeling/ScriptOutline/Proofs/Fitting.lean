/-
Neighbouring tokens of a text fit each other.

Behind a value a slash divides and elsewhere it opens a regular expression, so the kind of a
token depends on the token before.  `Lexed` says that the tokens in a stream's window and those that
its source still has stand behind one another in this way.  Every operation on the stream keeps
it, also one that fails, since `Upheld.after` takes it from the operations that fetch to any
run.  Of a group that has been read it is left that each token fits the one before.
-/
import Mathlib.Data.List.Chain
import ScriptOutline.Proofs.Brackets
import ScriptOutline.Proofs.SharedRuns

namespace ScriptOutline

namespace TokenStream

/-- The operation keeps `P`, whether it succeeds or fails. -/
abbrev Keeps (P : TokenStream → Prop) {α : Type} (x : Streaming α) : Prop :=
  Runs P x (fun _ => P) P

/-- The operations that fetch keep `P`. -/
structure Upheld (P : TokenStream → Prop) : Prop where
  current : Keeps P currentSeen
  peek : Keeps P peekSeen
  advance : Keeps P advanceSeen

section

variable {P : TokenStream → Prop} {α β : Type} {x : Streaming α}

theorem Keeps.then {f : α → Streaming β} (hx : Keeps P x) (hf : ∀ a, Keeps P (f a)) :
    Keeps P (x >>= f) :=
  Runs.bind hx hf

theorem keeps_pure (a : α) : Keeps P (pure a) := Runs.pure fun _ hs => hs

theorem keeps_throw (e : ReadError) : Keeps P (throw e : Streaming α) := Runs.throw fun _ hs => hs

theorem keeps_collect {step : β → Streaming (Option (α × β))} (h : ∀ b, Keeps P (step b))
    (b : β) : Keeps P (Repeat.collect remaining step b) :=
  fun _ hs => (Repeat.collect_congr (fun _ _ _ => rfl) h b hs).2

variable (hP : Upheld P) {group : Streaming TokenTree}
include hP

theorem Upheld.token : Keeps P token := hP.current.then fun _ => keeps_pure _

theorem Upheld.advanceToken : Keeps P TokenStream.advance := hP.advance.then fun _ => keeps_pure _

theorem Upheld.expect (p : TokenPattern) : Keeps P (expect p) :=
  hP.token.then fun t => Runs.ite (fun _ => keeps_pure t) fun _ => keeps_throw _

theorem Upheld.gather (hgroup : Keeps P group) (ends : Nat → Token → Bool) :
    Keeps P (gather group ends) := by
  refine keeps_collect (fun conditionals => ?_) 0
  refine hP.token.then fun t => Runs.ite (fun _ => keeps_pure _) fun _ => Runs.ite (fun _ => ?_) ?_
  · exact hgroup.then fun tree => keeps_pure _
  · exact fun _ => hP.advanceToken.then fun _ => keeps_pure _

theorem Upheld.treesUntil (hgroup : Keeps P group) (p : TokenPattern) :
    Keeps P (treesUntil group p) := by
  refine hP.advanceToken.then fun _ => (hP.gather hgroup _).then fun trees => ?_
  exact hP.token.then fun t => Runs.ite (fun _ => keeps_pure trees) fun _ => keeps_throw _

theorem Upheld.groupWithin (depth : Nat) : Keeps P (groupWithin depth) := by
  induction depth with
  | zero => exact (hP.expect .opening).then fun t => keeps_throw _
  | succ depth ih =>
    refine (hP.expect .opening).then fun opener => (hP.treesUntil ih _).then fun trees => ?_
    exact hP.token.then fun closer => hP.advanceToken.then fun _ => keeps_pure _

theorem Upheld.skipUntil (p : TokenPattern) (stay : Bool) : Keeps P (skipUntil p stay) := by
  refine (hP.treesUntil (hP.groupWithin nestingLimit) p).then fun trees => ?_
  cases stay with
  | true => exact keeps_pure trees
  | false => exact hP.advanceToken.then fun _ => keeps_pure trees

theorem Upheld.ask (q : Request) : Keeps P (ask q) := by
  cases q with
  | current => exact hP.token.then fun t => keeps_pure _
  | peek => exact (hP.peek.then fun p => keeps_pure p.token).then fun t => keeps_pure _
  | previous => exact fun s hs => hs
  | advance => exact hP.advanceToken.then fun t => keeps_pure _
  | expect p => exact (hP.expect p).then fun t => keeps_pure _

theorem Upheld.perform (o : Operation) : Keeps P (perform o) := by
  cases o with
  | ask q => exact (hP.ask q).then fun t => keeps_pure _
  | skipUntil p stay => exact hP.skipUntil p stay
  | group => exact (hP.groupWithin nestingLimit).then fun tree => keeps_pure _

/-- A run of operations keeps what the operations that fetch keep. -/
theorem Upheld.after (os : List Operation) {s : TokenStream} (hs : P s) : P (s.after os) := by
  induction os generalizing s with
  | nil => exact hs
  | cons o os ih =>
    refine ih ?_
    have hrun := hP.perform o s hs
    cases h : TokenStream.perform o s with
    | ok a s' =>
      rw [h] at hrun
      exact hrun
    | error e s' =>
      rw [h] at hrun
      exact hrun

end

end TokenStream

variable [IdentifierTable]

namespace Lexer

/-- Behind a fault a slash is what it was before. -/
theorem regexpAllowed_of_error {l : Lexer} {e : LexError} (h : l.next.1 = .error e) :
    l.next.2.regexpAllowed = l.regexpAllowed := by
  simp only [next] at h ⊢
  split
  · rfl
  · rename_i hu
    simp only [hu] at h
    cases hcut : Cut.read l.regexpAllowed (Gap.read l.cursor).cursor.rest with
    | token kind length value => simp [hcut] at h
    | fault fault length passed => rfl

end Lexer

namespace TokenFeed

variable {l : Lexer} {t : Token}

/-- A token that a text goes on with, and what the text goes on with behind it. -/
theorem next_ofLexer (h : (ofLexer l).next.1 = .ok t) :
    t.Scanned ∧ t.fits l.regexpAllowed = true ∧
      ∃ l', (ofLexer l).next.2 = ofLexer l' ∧
        (t.isEof = false → l'.regexpAllowed = !t.endsValue) := by
  rw [ofLexer] at h ⊢
  split at h
  · rename_i hmove
    rw [if_pos hmove]
    rw [next_cons] at h ⊢
    obtain ⟨hscanned, hfits, hallowed⟩ := Lexer.scanned_next h
    exact ⟨hscanned, hfits, l.next.2, rfl, fun _ => hallowed⟩
  · rename_i hstay
    rw [if_neg hstay]
    rw [next_of_nil rfl] at h ⊢
    obtain ⟨hscanned, hfits, -⟩ := Lexer.scanned_next h
    refine ⟨hscanned, hfits, l, by rw [ofLexer, if_neg hstay], fun he => ?_⟩
    exact absurd (Lexer.offset_lt_next h he) hstay

theorem next_ofLexer_of_error {e : LexError} (h : (ofLexer l).next.1 = .error e) :
    ∃ l', (ofLexer l).next.2 = ofLexer l' ∧ l'.regexpAllowed = l.regexpAllowed := by
  rw [ofLexer] at h ⊢
  split at h
  · rename_i hmove
    rw [if_pos hmove]
    rw [next_cons] at h ⊢
    exact ⟨l.next.2, rfl, Lexer.regexpAllowed_of_error h⟩
  · rename_i hstay
    rw [if_neg hstay, next_of_nil rfl]
    exact ⟨l, by rw [ofLexer, if_neg hstay], rfl⟩

end TokenFeed

namespace TokenStream

variable {s s' : TokenStream} {c d : Seen}

def newest (s : TokenStream) : Option Token := (s.peeked <|> s.current).map (·.token)

omit [IdentifierTable] in
theorem newest_of_shows {t : Token} (hp : s.peeked = none) (h : Shows t s) :
    s.newest = some t := by
  rw [newest, hp]
  exact h

/-- The tokens in the window are tokens of a text, and the text goes on as it does behind the
last of them. -/
structure Lexed (s : TokenStream) : Prop where
  source : ∃ l : Lexer, s.feed = .ofLexer l ∧
    ∀ t, s.newest = some t → t.isEof = false → l.regexpAllowed = !t.endsValue
  current : ∀ t, Shows t s → Lexical t.kind t.value
  peeked : ∀ u, s.peeked.map (·.token) = some u → Lexical u.kind u.value ∧
    ∃ t, Shows t s ∧ (t.isEof = false → u.fits (!t.endsValue) = true)

/-- What is fetched follows the current token in the text. -/
theorem Lexed.of_fetch (hs : s.Lexed) (hp : s.peeked = none) (h : fetch s = .ok d s') :
    Lexical d.token.kind d.token.value ∧
      (∀ t, Shows t s → t.isEof = false → d.token.fits (!t.endsValue) = true) ∧
      s'.peeked = none ∧
      ∃ l : Lexer, s'.feed = .ofLexer l ∧
        (d.token.isEof = false → l.regexpAllowed = !d.token.endsValue) := by
  obtain ⟨l, hfeed, hallowed⟩ := hs.source
  obtain ⟨next, hnext⟩ := next_of_fetch h
  rw [fetch_run hnext] at h
  split at h
  · rename_i hdue
    cases h
    refine ⟨@Lexical.mark _ ';' rfl, fun _ _ _ => rfl, hp, l, hfeed, fun _ => ?_⟩
    -- a semicolon is put in behind a keyword, where no value ends
    cases hc : s.current with
    | none => simp [semicolonDue, hc] at hdue
    | some c =>
      simp only [semicolonDue, hc, Bool.and_eq_true] at hdue
      have hkeyword := Token.isJump_kind (isJump_of_needsSemicolon hdue.2)
      have hshows : Shows c.token s := by rw [Shows, hc, Option.map_some]
      rw [hallowed c.token (newest_of_shows hp hshows) (by simp [Token.isEof, hkeyword])]
      simp [Token.endsValue, hkeyword, Token.semicolonBefore, Token.isClosing, Token.isPunctuation]
  · cases h
    rw [hfeed] at hnext
    obtain ⟨hscanned, hfits, l', hfeed', hallowed'⟩ := TokenFeed.next_ofLexer hnext
    refine ⟨hscanned.lexical, fun t ht he => ?_, hp, l', ?_, hallowed'⟩
    · rw [← hallowed t (newest_of_shows hp ht) he]
      exact hfits
    · rw [hfeed]
      exact hfeed'

/-- A fault in the source leaves the window as it was. -/
theorem Lexed.of_fetch_error {e : ReadError} (hs : s.Lexed) (h : fetch s = .error e s') :
    s'.Lexed := by
  obtain ⟨l, hfeed, hallowed⟩ := hs.source
  cases hnext : s.feed.next.1 with
  | ok next =>
    rw [fetch_run hnext] at h
    split at h <;> cases h
  | error e =>
    rw [Pairing.fetch_of_error hnext] at h
    cases h
    rw [hfeed] at hnext
    obtain ⟨l', hfeed', hallowed'⟩ := TokenFeed.next_ofLexer_of_error hnext
    refine ⟨⟨l', ?_, fun t ht he => ?_⟩, hs.current, hs.peeked⟩
    · rw [hfeed]
      exact hfeed'
    · rw [hallowed']
      exact hallowed t ht he

/-- A stream that stands at a token of a text, behind which it has nothing yet. -/
theorem Lexed.of_shows {t : Token} (hshows : Shows t s) (hp : s.peeked = none)
    (hlex : Lexical t.kind t.value)
    (hsource : ∃ l : Lexer, s.feed = .ofLexer l ∧
      (t.isEof = false → l.regexpAllowed = !t.endsValue)) : s.Lexed := by
  obtain ⟨l, hfeed, hallowed⟩ := hsource
  have hsame : ∀ u, some t = some u → u = t := fun u hu => (Option.some.inj hu).symm
  refine ⟨⟨l, hfeed, fun u hu he => ?_⟩, fun u hu => ?_, fun u hu => ?_⟩
  · rw [newest_of_shows hp hshows] at hu
    rw [hsame u hu] at he ⊢
    exact hallowed he
  · rw [Shows, hshows] at hu
    rwa [hsame u hu]
  · rw [hp] at hu
    cases hu

theorem Lexed.of_currentSeen (hs : s.Lexed) (h : currentSeen s = .ok c s') : s'.Lexed := by
  rcases Pairing.currentSeen_of_ok h with ⟨-, rfl⟩ | ⟨hc, s₁, hfetch, rfl⟩
  · exact hs
  · have hp : s.peeked = none := by
      cases hp : s.peeked with
      | none => rfl
      | some d =>
        obtain ⟨-, t, ht, -⟩ := hs.peeked d.token (by rw [hp, Option.map_some])
        rw [Shows, hc] at ht
        cases ht
    obtain ⟨hlex, -, hp', hsource⟩ := hs.of_fetch hp hfetch
    exact of_shows rfl hp' hlex hsource

theorem Lexed.of_peekSeen {t : Token} (hs : s.Lexed) (ht : Shows t s)
    (h : peekSeen s = .ok d s') : s'.Lexed := by
  obtain ⟨c, hc, -, -⟩ := currentSeen_of_shows ht
  rcases Pairing.peekSeen_of_ok hc h with ⟨-, rfl⟩ | ⟨hp, s₁, hfetch, rfl⟩
  · exact hs
  · obtain ⟨hlex, hfits, -, l, hfeed, hallowed⟩ := hs.of_fetch hp hfetch
    have hsame := shows_fetch hfetch
    refine ⟨⟨l, hfeed, fun u hu he => ?_⟩, fun u hu => ?_, fun u hu => ?_⟩
    · obtain rfl := Option.some.inj hu
      exact hallowed he
    · exact hs.current u (hsame.symm.trans hu)
    · obtain rfl := Option.some.inj hu
      exact ⟨hlex, t, hsame.trans ht, hfits t ht⟩

/-- Moving on leads to a token that fits the one that is left. -/
theorem Lexed.of_advanceSeen {t : Token} (hs : s.Lexed) (ht : Shows t s)
    (h : advanceSeen s = .ok d s') :
    s'.Lexed ∧ (t.isEof = false → d.token.fits (!t.endsValue) = true) := by
  obtain ⟨c, hc, -, -⟩ := currentSeen_of_shows ht
  rcases Pairing.advanceSeen_of_ok hc h with ⟨hp, rfl⟩ | ⟨hp, s₁, hfetch, rfl⟩
  · obtain ⟨hlex, u, hu, hfits⟩ := hs.peeked d.token (by rw [hp, Option.map_some])
    obtain rfl : u = t := Option.some.inj (hu.symm.trans ht)
    obtain ⟨l, hfeed, hallowed⟩ := hs.source
    refine ⟨of_shows rfl rfl hlex ⟨l, hfeed, hallowed d.token ?_⟩, hfits⟩
    rw [newest, hp]
    rfl
  · obtain ⟨hlex, hfits, hp', hsource⟩ := hs.of_fetch hp hfetch
    exact ⟨of_shows rfl rfl hlex hsource, hfits t ht⟩

theorem lexed_ofFeed (l : Lexer) : (ofFeed (.ofLexer l)).Lexed :=
  ⟨⟨l, rfl, nofun⟩, nofun, nofun⟩

/-- An operation that begins with a look at the current token is right if it is right where
there is one. -/
theorem keeps_looked {x : Streaming Seen} (hx : x = currentSeen >>= fun _ => x)
    (hok : ∀ {s s' t d}, Lexed s → Shows t s → x s = .ok d s' → Lexed s')
    (herror : ∀ {s s' t e}, Shows t s → x s = .error e s' → fetch s = .error e s') :
    Keeps Lexed x := by
  intro s hs
  rw [hx, bind_run]
  cases hc : currentSeen s with
  | error e s₁ => exact hs.of_fetch_error (Pairing.currentSeen_of_error hc).2
  | ok c s₁ =>
    have hs₁ := hs.of_currentSeen hc
    have hshows := currentSeen_shows hc
    show Meets _ _ (x s₁)
    cases hrun : x s₁ with
    | error e s₂ => exact hs₁.of_fetch_error (herror hshows hrun)
    | ok d s₂ => exact hok hs₁ hshows hrun

/-- The operations that fetch keep to the text. -/
theorem upheld_lexed : Upheld Lexed where
  current := by
    intro s hs
    cases hrun : currentSeen s with
    | error e s' => exact hs.of_fetch_error (Pairing.currentSeen_of_error hrun).2
    | ok c s' => exact hs.of_currentSeen hrun
  peek := by
    refine keeps_looked Pairing.peekSeen_eq (fun hs ht h => hs.of_peekSeen ht h) fun ht h => ?_
    obtain ⟨c, hc, -, -⟩ := currentSeen_of_shows ht
    exact (Pairing.peekSeen_of_error hc h).2
  advance := by
    refine keeps_looked Pairing.advanceSeen_eq (fun hs ht h => (hs.of_advanceSeen ht h).1)
      fun ht h => ?_
    obtain ⟨c, hc, -, -⟩ := currentSeen_of_shows ht
    exact (Pairing.advanceSeen_of_error hc h).2

end TokenStream

/-! ## Tokens that have been passed -/

/-- Tokens of a text, each of which fits the one before. -/
structure Neighbours (ts : List Token) : Prop where
  lexical : ∀ t ∈ ts, Lexical t.kind t.value
  proper : ∀ t ∈ ts, t.isEof = false
  fits : ts.IsChain fun t u => u.fits (!t.endsValue) = true

theorem Neighbours.tail {t : Token} {ts : List Token} (h : Neighbours (t :: ts)) :
    Neighbours ts :=
  ⟨fun u hu => h.lexical u (List.mem_cons_of_mem t hu),
    fun u hu => h.proper u (List.mem_cons_of_mem t hu), h.fits.tail⟩

namespace TokenStream

variable {s s' : TokenStream} {t : Token} {ts : List Token}

theorem Lexed.of_token (hs : s.Lexed) (h : token s = .ok t s') : s'.Lexed := by
  obtain ⟨c, s₁, hrun, hp⟩ := bind_eq_ok.1 h
  cases hp
  exact hs.of_currentSeen hrun

theorem Lexed.of_advance {u : Token} (hs : s.Lexed) (ht : Shows t s)
    (h : advance s = .ok u s') :
    s'.Lexed ∧ (t.isEof = false → u.fits (!t.endsValue) = true) := by
  obtain ⟨c, s₁, hrun, hp⟩ := bind_eq_ok.1 h
  cases hp
  exact hs.of_advanceSeen ht hrun

/-- Tokens that are passed fit one another. -/
theorem Passes.neighbours (h : Passes s ts s') (hs : s.Lexed) (he : ∀ t ∈ ts, t.isEof = false) :
    Neighbours ts := by
  induction h with
  | nil => exact ⟨nofun, nofun, .nil⟩
  | @cons s s₁ s₂ s' t u ts current next rest ih =>
    obtain ⟨ht, hts⟩ := List.forall_mem_cons.1 he
    have hs₁ := hs.of_token current
    have hshows := token_shows current
    obtain ⟨hs₂, hfits⟩ := hs₁.of_advance hshows next
    obtain ⟨hlex, hproper, hchain⟩ := ih hs₂ hts
    refine ⟨List.forall_mem_cons.2 ⟨hs₁.current t hshows, hlex⟩, he, ?_⟩
    cases rest with
    | nil => exact .singleton t
    | @cons _ s₃ s₄ _ v w vs current' next' rest' =>
      -- the next token that is passed is the one that was moved to
      rw [token_of_shows (advance_shows next)] at current'
      cases current'
      exact .cons_cons (hfits ht) hchain

/-- The tokens of a group that is read anywhere in a text fit one another. -/
theorem neighbours_of_group {text : String} {os : List Operation} {g : TokenTree}
    (h : group ((ofFeed (.ofText text)).after os) = .ok g s') :
    g.IsGroup ∧ Neighbours g.tokens := by
  have hlexed : ((ofFeed (.ofText text)).after os).Lexed := upheld_lexed.after os (lexed_ofFeed _)
  obtain ⟨hgroup, -, hpasses⟩ := groupWithin_passes nestingLimit h
  exact ⟨hgroup, hpasses.neighbours hlexed (TokenTree.isEof_of_isGroup g hgroup)⟩

end TokenStream
end ScriptOutline
