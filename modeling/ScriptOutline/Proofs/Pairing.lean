/-
Two token sources read side by side.

A `Pairing` says which tokens of two sources correspond.  Corresponding tokens agree in
kind, value and flags, and in nothing else.  The second source may end where the first
goes on; `stop` are the tokens it then gives for ever.

`Streams` relates streams over two such sources, and each operation of a stream keeps
it: the same lookahead is taken, the same semicolons are put in, and the runs part only
where the second source ends.
-/
import ScriptOutline.Proofs.Semicolons
import ScriptOutline.Proofs.Tandem

namespace ScriptOutline

namespace Token

/-- A token without its place and the comments before it. -/
def signs (t : Token) : Token :=
  { kind := t.kind, value := t.value, lineBreak := t.lineBreak, inserted := t.inserted }

section Signs

variable {s t : Token}

theorem congr_signs {γ : Type} (f : Token → γ) (hf : ∀ t, f t = f t.signs)
    (h : s.signs = t.signs) : f s = f t := by
  rw [hf s, hf t, h]

theorem congr_signs₂ {s' t' : Token} {γ : Type} (f : Token → Token → γ)
    (hf : ∀ t u, f t u = f t.signs u.signs) (h : s.signs = t.signs) (h' : s'.signs = t'.signs) :
    f s s' = f t t' := by
  rw [hf s, hf t, h, h']

theorem kind_congr (h : s.signs = t.signs) : s.kind = t.kind :=
  congr_signs kind (fun _ => rfl) h

theorem value_congr (h : s.signs = t.signs) : s.value = t.value :=
  congr_signs value (fun _ => rfl) h

theorem bare_congr (h : s.signs = t.signs) : s.bare = t.bare :=
  congr_signs bare (fun _ => rfl) h

end Signs

end Token

namespace ReadFault

def bare : ReadFault → ReadFault
  | invalidStatement found => invalidStatement found.bare
  | unknownStructure found => unknownStructure found.bare
  | fault => fault

end ReadFault

namespace TokenFeed

theorem next_of_nil {f : TokenFeed} (h : f.items = []) : f.next = (f.final, f) := by
  unfold next
  split
  · rfl
  · rename_i hitems
    rw [h] at hitems
    cases hitems

theorem next_of_cons {f : TokenFeed} {item : Except LexError Token}
    {items : List (Except LexError Token)} (h : f.items = item :: items) :
    f.next.1 = item ∧ f.next.2.items = items ∧ f.next.2.final = f.final := by
  unfold next
  split
  · rename_i hitems
    rw [h] at hitems
    cases hitems
  · rename_i hitems
    rw [h] at hitems
    cases hitems
    exact ⟨rfl, rfl, rfl⟩

def endOf (tokens : List Token) : Token :=
  { kind := .eof, location := (tokens.getLast?.map (·.location.back)).getD {} }

theorem final_ofTokens (tokens : List Token) : (ofTokens tokens).final = .ok (endOf tokens) := rfl

end TokenFeed

/-! ## Corresponding tokens -/

structure Pairing where
  raw : Token → Token → Prop
  lexical : LexError → LexError → Prop
  stop : Token → Prop
  signs_eq {s t : Token} : raw s t → s.signs = t.signs
  eof_of_stop {t : Token} : stop t → t.isEof = true
  same_line {t : Token} : stop t → t.lineBreak = false

namespace Pairing

/-- Sources of one length: neither ends before the other. -/
def whole (raw : Token → Token → Prop) (lexical : LexError → LexError → Prop)
    (hsigns : ∀ {s t}, raw s t → s.signs = t.signs) : Pairing where
  raw := raw
  lexical := lexical
  stop _ := False
  signs_eq := hsigns
  eof_of_stop h := h.elim
  same_line h := h.elim

/-- The tokens that readers of the two sources meet at the same place. -/
inductive Met (p : Pairing) : Token → Token → Prop where
  | token {s t : Token} (h : p.raw s t) : Met p s t
  | semicolon {s t : Token} (h : p.raw s t) : Met p (.semicolonBefore s) (.semicolonBefore t)

/-- Failures at the same place for the same cause. -/
inductive Fails (p : Pairing) : ReadError → ReadError → Prop where
  | lexical {d e : LexError} (h : p.lexical d e) : Fails p (.ofLexError d) (.ofLexError e)
  | here {d e : ReadError} {s t : Token} (met : p.Met s t) (cause : d.fault.bare = e.fault.bare)
      (first : d.location = s.location) (second : e.location = t.location) : Fails p d e

/-- A failure that shows where the second source ends. -/
def Cut (p : Pairing) (e : ReadError) : Prop :=
  ∃ t, p.stop t ∧ (e = .endOfInput t ∨ e.fault = .nestingTooDeep)

def item (p : Pairing) : Except LexError Token → Except LexError Token → Prop
  | .ok s, .ok t => p.raw s t
  | .error d, .error e => p.lexical d e
  | _, _ => False

/-- The second feed has what the first has before the items `more`, and then ends. -/
structure Feeds (p : Pairing) (more : List (Except LexError Token)) (f g : TokenFeed) : Prop where
  items : ∃ shared, f.items = shared ++ more ∧ List.Forall₂ p.item shared g.items
  final : (more = [] ∧ p.item f.final g.final) ∨ ∃ t, g.final = .ok t ∧ p.stop t

structure Streams (p : Pairing) (more : List (Except LexError Token)) (s t : TokenStream) :
    Prop where
  feed : p.Feeds more s.feed t.feed
  header : s.header = t.header
  current : Option.Rel (fun c d => p.Met c.token d.token) s.current t.current
  peeked : Option.Rel (fun c d => p.Met c.token d.token) s.peeked t.peeked
  /-- Nothing is peeked at before there is a current token. -/
  inOrder : t.current = none → t.peeked = none

/-- The stream stands at a token of which `q` holds, and there is none behind it. -/
structure Last (p : Pairing) (q : Token → Prop) (t : TokenStream) : Prop where
  items : t.feed.items = []
  final : ∃ u, t.feed.final = .ok u ∧ p.stop u
  current : ∃ c, t.current = some c ∧ q c.token
  peeked : ∀ c, t.peeked = some c → p.stop c.token

/-- The streams are abreast, and the second one stands at `u`. -/
def Facing (p : Pairing) (more : List (Except LexError Token)) (u : Token) (s t : TokenStream) :
    Prop :=
  p.Streams more s t ∧ t.current.map (·.token) = some u

def tandem (p : Pairing) (more : List (Except LexError Token)) :
    Tandem ReadError TokenStream where
  fails := p.Fails
  cut := p.Cut
  abreast := p.Streams more
  spent := p.Last p.stop

variable {p : Pairing} {more : List (Except LexError Token)} {f g : TokenFeed}
  {s t : TokenStream} {q q' : Token → Prop} {u : Token}

theorem Met.signs_eq {a b : Token} (h : p.Met a b) : a.signs = b.signs := by
  cases h with
  | token h => exact p.signs_eq h
  | semicolon _ => rfl

theorem Met.congr {a b : Token} (h : p.Met a b) {γ : Type} (f : Token → γ)
    (hf : ∀ t, f t = f t.signs) : f a = f b := Token.congr_signs f hf h.signs_eq

theorem Met.test {a b : Token} (h : p.Met a b) (f : Token → Bool) (hf : ∀ t, f t = f t.signs) :
    f a = true ↔ f b = true := by
  rw [h.congr f hf]

theorem Met.bare_eq {a b : Token} (h : p.Met a b) : a.bare = b.bare := h.congr _ fun _ => rfl

theorem Last.mono (h : p.Last q t) (hq : ∀ u, q u → q' u) : p.Last q' t :=
  ⟨h.items, h.final, h.current.imp fun _ hc => ⟨hc.1, hq _ hc.2⟩, h.peeked⟩

theorem Last.exists_stop (h : p.Last q t) : ∃ u, p.stop u := h.final.imp fun _ hu => hu.2

theorem Feeds.size_eq (h : p.Feeds more f g) : f.size = g.size + more.length := by
  obtain ⟨shared, hf, hitems⟩ := h.items
  rw [f.size_eq, g.size_eq, hf, List.length_append, hitems.length_eq]

/-- The next items correspond, unless the second feed has ended. -/
theorem Feeds.next (h : p.Feeds more f g) :
    (p.item f.next.1 g.next.1 ∧ p.Feeds more f.next.2 g.next.2) ∨
      g.items = [] ∧ ∃ t, g.final = .ok t ∧ p.stop t := by
  obtain ⟨shared, hf, hitems⟩ := h.items
  cases hg : g.items with
  | nil =>
    rw [hg] at hitems
    cases hitems
    rcases h.final with ⟨rfl, hfinal⟩ | hstop
    · refine .inl ?_
      rw [List.append_nil] at hf
      rw [TokenFeed.next_of_nil hf, TokenFeed.next_of_nil hg]
      exact ⟨hfinal, h⟩
    · exact .inr ⟨rfl, hstop⟩
  | cons b bs =>
    rw [hg] at hitems
    cases hitems with
    | @cons a _ as _ hab has =>
      refine .inl ?_
      obtain ⟨hi, his, hfinal⟩ := TokenFeed.next_of_cons hf
      obtain ⟨hi', his', hfinal'⟩ := TokenFeed.next_of_cons hg
      rw [hi, hi']
      refine ⟨hab, ⟨as, his, ?_⟩, ?_⟩
      · rwa [his']
      · rw [hfinal, hfinal']
        exact h.final

/-- Scanning from related places gives corresponding items and goes on from related places,
or stays at both. -/
structure Abreast [IdentifierTable] (p : Pairing) (R : Lexer → Lexer → Prop) : Prop where
  item {l m : Lexer} : R l m → p.item l.next.1 m.next.1
  next {l m : Lexer} : R l m → R l.next.2 m.next.2
  moves {l m : Lexer} : R l m →
    (l.cursor.offset < l.next.2.cursor.offset ↔ m.cursor.offset < m.next.2.cursor.offset)

variable {R : Lexer → Lexer → Prop}

theorem Abreast.feed [IdentifierTable] (hR : p.Abreast R) (l : Lexer) : ∀ m, R l m →
    List.Forall₂ p.item (TokenFeed.ofLexer l).items (TokenFeed.ofLexer m).items ∧
      p.item (TokenFeed.ofLexer l).final (TokenFeed.ofLexer m).final := by
  fun_induction TokenFeed.ofLexer l with
  | case1 l step hmoves ih =>
    intro m h
    obtain ⟨hitems, hfinal⟩ := ih m.next.2 (hR.next h)
    rw [TokenFeed.ofLexer.eq_def m, if_pos ((hR.moves h).1 hmoves)]
    exact ⟨.cons (hR.item h) hitems, hfinal⟩
  | case2 l step hstays =>
    intro m h
    rw [TokenFeed.ofLexer.eq_def m, if_neg fun hmoves => hstays ((hR.moves h).2 hmoves)]
    exact ⟨.nil, hR.item h⟩

theorem Abreast.feeds [IdentifierTable] (hR : p.Abreast R) {l m : Lexer} (h : R l m) :
    p.Feeds [] (.ofLexer l) (.ofLexer m) := by
  obtain ⟨hitems, hfinal⟩ := hR.feed l m h
  exact ⟨⟨_, (List.append_nil _).symm, hitems⟩, .inl ⟨rfl, hfinal⟩⟩

/-- Corresponding tokens through `eof`, or up to corresponding faults. -/
structure Scans (p : Pairing) (s t : Scan) : Prop where
  tokens : List.Forall₂ p.raw s.tokens t.tokens
  error : Option.Rel p.lexical s.error t.error

theorem scans_ofItems {final final' : Except LexError Token}
    {items items' : List (Except LexError Token)} (hfinal : p.item final final')
    (hitems : List.Forall₂ p.item items items') :
    p.Scans (.ofItems final items) (.ofItems final' items') := by
  induction hitems with
  | nil =>
    match final, final', hfinal with
    | .ok s, .ok t, h => exact ⟨.cons h .nil, .none⟩
    | .error d, .error e, h => exact ⟨.nil, .some h⟩
  | @cons item item' items items' hitem hitems ih =>
    match item, item', hitem with
    | .ok s, .ok t, h =>
      have heof : t.isEof = s.isEof := by
        rw [Token.isEof, Token.isEof, Token.kind_congr (p.signs_eq h)]
      simp only [Scan.ofItems, heof]
      split
      · exact ⟨.cons h .nil, .none⟩
      · exact ⟨.cons h ih.tokens, ih.error⟩
    | .error d, .error e, h => exact ⟨.nil, .some h⟩

/-! ## Operations -/

theorem fetch_of_error {e : LexError} (h : s.feed.next.1 = .error e) :
    TokenStream.fetch s = .error (.ofLexError e) { s with feed := s.feed.next.2 } := by
  obtain ⟨item, feed, hn⟩ : ∃ item feed, s.feed.next = (item, feed) := ⟨_, _, rfl⟩
  rw [hn] at h
  simp only at h
  subst h
  simp only [TokenStream.fetch, bind_run, get_run, hn, set_run, throw_run]

/-- What follows a token does not change it. -/
theorem map_token_followedBy (o : Option Seen) (t : Token) :
    (o.map fun c => c.followedBy t).map (·.token) = o.map (·.token) := by
  rw [Option.map_map]
  exact Option.map_congr fun c _ => TokenStream.token_followedBy c t

theorem rel_followedBy {o o' : Option Seen} {a b : Token}
    (h : Option.Rel (fun c d => p.Met c.token d.token) o o') :
    Option.Rel (fun c d => p.Met c.token d.token) (o.map fun c => c.followedBy a)
      (o'.map fun c => c.followedBy b) := by
  cases h with
  | none => exact .none
  | some h =>
    refine .some ?_
    rwa [TokenStream.token_followedBy, TokenStream.token_followedBy]

theorem Streams.semicolonDue_eq (h : p.Streams more s t) {a b : Token} (hab : p.raw a b) :
    s.semicolonDue a = t.semicolonDue b := by
  have hb := p.signs_eq hab
  unfold TokenStream.semicolonDue
  rw [h.header]
  have hcurrent := h.current
  generalize s.current = o, t.current = o' at hcurrent
  cases hcurrent with
  | none => rfl
  | @some c d hcd =>
    refine congrArg (!t.header.active && ·) ?_
    exact Token.congr_signs₂ needsSemicolon (fun _ _ => rfl) hcd.signs_eq hb

/-- Fetching from streams abreast gives corresponding tokens or failures, unless the
second source has ended. -/
theorem Streams.fetch (h : p.Streams more s t) :
    (∃ c d s' t', TokenStream.fetch s = .ok c s' ∧ TokenStream.fetch t = .ok d t' ∧
      p.Met c.token d.token ∧ p.Streams more s' t' ∧
      t'.current.map (·.token) = t.current.map (·.token)) ∨
    (∃ d e s' t', TokenStream.fetch s = .error d s' ∧ TokenStream.fetch t = .error e t' ∧
      p.Fails d e) ∨
    (t.feed.items = [] ∧ ∃ u, t.feed.final = .ok u ∧ p.stop u) := by
  rcases h.feed.next with ⟨hitem, hfeed⟩ | hstop
  · cases hs : s.feed.next.1 with
    | error d =>
      cases ht : t.feed.next.1 with
      | error e =>
        rw [hs, ht] at hitem
        exact .inr (.inl ⟨_, _, _, _, fetch_of_error hs, fetch_of_error ht, .lexical hitem⟩)
      | ok b =>
        rw [hs, ht] at hitem
        cases hitem
    | ok a =>
      cases ht : t.feed.next.1 with
      | error e =>
        rw [hs, ht] at hitem
        cases hitem
      | ok b =>
        rw [hs, ht] at hitem
        have hab : p.raw a b := hitem
        have htrack : s.header.track a = t.header.track b := by
          rw [h.header]
          exact Token.congr_signs t.header.track (fun _ => rfl) (p.signs_eq hab)
        have hcurrent := rel_followedBy (a := a) (b := b) h.current
        have horder : (t.current.map fun c => c.followedBy b) = none → t.peeked = none := by
          rw [Option.map_eq_none_iff]
          exact h.inOrder
        have hsame := map_token_followedBy t.current b
        refine .inl ?_
        rw [TokenStream.fetch_run hs, TokenStream.fetch_run ht, h.semicolonDue_eq hab]
        by_cases hdue : t.semicolonDue b = true
        · simp only [hdue, if_true]
          exact ⟨_, _, _, _, rfl, rfl, .semicolon hab, ⟨h.feed, htrack, hcurrent, h.peeked, horder⟩,
            hsame⟩
        · simp only [hdue, Bool.false_eq_true, if_false]
          exact ⟨_, _, _, _, rfl, rfl, .token hab, ⟨hfeed, htrack, hcurrent, h.peeked, horder⟩,
            hsame⟩
  · exact .inr (.inr hstop)

/-- Behind the end of the source nothing is put in. -/
theorem fetch_of_stop (hitems : t.feed.items = []) (hfinal : t.feed.final = .ok u)
    (hu : p.stop u) :
    ∃ header, TokenStream.fetch t = .ok { token := u }
      { t with current := t.current.map fun c => c.followedBy u, header } := by
  have hn := TokenFeed.next_of_nil hitems
  have hdue : t.semicolonDue u = false := by
    unfold TokenStream.semicolonDue
    cases t.current with
    | none => rfl
    | some c => simp [needsSemicolon, p.same_line hu]
  refine ⟨t.header.track u, ?_⟩
  rw [TokenStream.fetch_run (by rw [hn, hfinal]), hdue, hn]
  rfl

theorem currentSeen_run (s : TokenStream) :
    TokenStream.currentSeen s =
      match s.current with
      | some c => .ok c s
      | none =>
        match TokenStream.fetch s with
        | .ok c s' => .ok c { s' with current := some c }
        | .error e s' => .error e s' := by
  unfold TokenStream.currentSeen
  rw [bind_run_ok (get_run s)]
  cases s.current with
  | some c => rfl
  | none =>
    show (TokenStream.fetch >>= _) s = _
    rw [bind_run]
    cases TokenStream.fetch s <;> rfl

/-- What looking at the next token gives where `current` is known. -/
theorem peekSeen_run {c : Seen} (h : s.current = some c) :
    TokenStream.peekSeen s =
      match s.peeked with
      | some d => .ok d s
      | none =>
        match TokenStream.fetch s with
        | .ok d s' => .ok d { s' with peeked := some d }
        | .error e s' => .error e s' := by
  unfold TokenStream.peekSeen
  rw [bind_run_ok (show TokenStream.currentSeen s = .ok c s by rw [currentSeen_run, h]),
    bind_run_ok (get_run s)]
  cases s.peeked with
  | some d => rfl
  | none =>
    show (TokenStream.fetch >>= _) s = _
    rw [bind_run]
    cases TokenStream.fetch s <;> rfl

theorem advanceSeen_run {c : Seen} (h : s.current = some c) :
    TokenStream.advanceSeen s =
      match s.peeked with
      | some d => .ok d { s with previous := s.current, current := some d, peeked := none }
      | none =>
        match TokenStream.fetch s with
        | .ok d s' => .ok d { s' with previous := s'.current, current := some d, peeked := none }
        | .error e s' => .error e s' := by
  unfold TokenStream.advanceSeen
  rw [bind_run_ok (show TokenStream.currentSeen s = .ok c s by rw [currentSeen_run, h]),
    bind_run_ok (get_run s)]
  cases s.peeked with
  | some d => rfl
  | none =>
    show (TokenStream.fetch >>= _) s = _
    rw [bind_run]
    cases TokenStream.fetch s <;> rfl

/-- A token that is there is given, and one that is not is fetched. -/
theorem missing_of_ok {o : Option Seen} {keep : Seen → TokenStream}
    {put : Seen → TokenStream → TokenStream} {c : Seen}
    (h : (match o with
      | some c => .ok c (keep c)
      | none =>
        match TokenStream.fetch s with
        | .ok c s₁ => .ok c (put c s₁)
        | .error e s₁ => .error e s₁ : EStateM.Result ReadError TokenStream Seen) = .ok c s') :
    (o = some c ∧ s' = keep c) ∨
      o = none ∧ ∃ s₁, TokenStream.fetch s = .ok c s₁ ∧ s' = put c s₁ := by
  cases o with
  | some d =>
    cases h
    exact .inl ⟨rfl, rfl⟩
  | none =>
    cases hf : TokenStream.fetch s with
    | ok d s₁ =>
      rw [hf] at h
      cases h
      exact .inr ⟨rfl, s₁, rfl, rfl⟩
    | error e s₁ =>
      rw [hf] at h
      cases h

theorem missing_of_error {o : Option Seen} {keep : Seen → TokenStream}
    {put : Seen → TokenStream → TokenStream} {e : ReadError}
    (h : (match o with
      | some c => .ok c (keep c)
      | none =>
        match TokenStream.fetch s with
        | .ok c s₁ => .ok c (put c s₁)
        | .error e s₁ => .error e s₁ : EStateM.Result ReadError TokenStream Seen) = .error e s') :
    o = none ∧ TokenStream.fetch s = .error e s' := by
  cases o with
  | some d => cases h
  | none =>
    cases hf : TokenStream.fetch s with
    | ok d s₁ =>
      rw [hf] at h
      cases h
    | error d s₁ =>
      rw [hf] at h
      cases h
      exact ⟨rfl, rfl⟩

theorem currentSeen_of_ok {c : Seen} (h : TokenStream.currentSeen s = .ok c s') :
    (s.current = some c ∧ s' = s) ∨
      s.current = none ∧ ∃ s₁, TokenStream.fetch s = .ok c s₁ ∧
        s' = { s₁ with current := some c } := by
  rw [currentSeen_run] at h
  exact missing_of_ok h

theorem currentSeen_of_error {e : ReadError} (h : TokenStream.currentSeen s = .error e s') :
    s.current = none ∧ TokenStream.fetch s = .error e s' := by
  rw [currentSeen_run] at h
  exact missing_of_error h

theorem peekSeen_of_ok {c d : Seen} (hc : s.current = some c)
    (h : TokenStream.peekSeen s = .ok d s') :
    (s.peeked = some d ∧ s' = s) ∨
      s.peeked = none ∧ ∃ s₁, TokenStream.fetch s = .ok d s₁ ∧
        s' = { s₁ with peeked := some d } := by
  rw [peekSeen_run hc] at h
  exact missing_of_ok h

theorem peekSeen_of_error {c : Seen} {e : ReadError} (hc : s.current = some c)
    (h : TokenStream.peekSeen s = .error e s') :
    s.peeked = none ∧ TokenStream.fetch s = .error e s' := by
  rw [peekSeen_run hc] at h
  exact missing_of_error h

theorem advanceSeen_of_ok {c d : Seen} (hc : s.current = some c)
    (h : TokenStream.advanceSeen s = .ok d s') :
    (s.peeked = some d ∧
        s' = { s with previous := s.current, current := some d, peeked := none }) ∨
      s.peeked = none ∧ ∃ s₁, TokenStream.fetch s = .ok d s₁ ∧
        s' = { s₁ with previous := s₁.current, current := some d, peeked := none } := by
  rw [advanceSeen_run hc] at h
  exact missing_of_ok h

theorem advanceSeen_of_error {c : Seen} {e : ReadError} (hc : s.current = some c)
    (h : TokenStream.advanceSeen s = .error e s') :
    s.peeked = none ∧ TokenStream.fetch s = .error e s' := by
  rw [advanceSeen_run hc] at h
  exact missing_of_error h

theorem current_of_currentSeen {c : Seen} (h : TokenStream.currentSeen s = .ok c s') :
    s'.current = some c := by
  rcases currentSeen_of_ok h with ⟨hc, rfl⟩ | ⟨-, s₁, -, rfl⟩
  · exact hc
  · rfl

/-- A look at the current token makes no difference to what is asked next. -/
theorem currentSeen_looked {c : Seen} (h : TokenStream.currentSeen s = .ok c s') :
    TokenStream.currentSeen s' = .ok c s' := by
  rw [currentSeen_run, current_of_currentSeen h]

theorem peekSeen_looked {c : Seen} (h : TokenStream.currentSeen s = .ok c s') :
    TokenStream.peekSeen s = TokenStream.peekSeen s' := by
  rw [TokenStream.peekSeen, bind_run_ok h, bind_run_ok (currentSeen_looked h)]

theorem advanceSeen_looked {c : Seen} (h : TokenStream.currentSeen s = .ok c s') :
    TokenStream.advanceSeen s = TokenStream.advanceSeen s' := by
  rw [TokenStream.advanceSeen, bind_run_ok h, bind_run_ok (currentSeen_looked h)]

theorem rel_cases {γ : Type} {R : γ → γ → Prop} {o o' : Option γ} (h : Option.Rel R o o') :
    (o = none ∧ o' = none) ∨ ∃ c d, o = some c ∧ o' = some d ∧ R c d := by
  cases h with
  | none => exact .inl ⟨rfl, rfl⟩
  | some h => exact .inr ⟨_, _, rfl, rfl, h⟩

theorem currentSeen_lockstep :
    (p.tandem more).Lockstep (p.Streams more) TokenStream.currentSeen TokenStream.currentSeen
      (fun c d s t => p.Met c.token d.token ∧ p.Facing more d.token s t)
      fun d t => p.stop d.token ∧ p.Last p.stop t := by
  intro s t h
  rw [currentSeen_run, currentSeen_run]
  rcases rel_cases h.current with ⟨hs, ht⟩ | ⟨c, d, hs, ht, hcd⟩
  · rw [hs, ht]
    rcases h.fetch with ⟨c, d, s', t', hfs, hft, hcd, hst, -⟩ | ⟨d, e, s', t', hfs, hft, hde⟩ |
      ⟨hitems, u, hfinal, hu⟩
    · rw [hfs, hft]
      refine .inl ⟨c, _, rfl, hcd, ?_, rfl⟩
      exact ⟨hst.feed, hst.header, .some hcd, hst.peeked, fun hn => by cases hn⟩
    · rw [hfs, hft]
      exact .inl ⟨d, s', rfl, hde⟩
    · obtain ⟨header, hft⟩ := fetch_of_stop hitems hfinal hu
      rw [hft]
      refine .inr ⟨hu, hitems, ⟨u, hfinal, hu⟩, ⟨_, rfl, hu⟩, ?_⟩
      intro c hc
      rw [show t.peeked = none from h.inOrder ht] at hc
      cases hc
  · rw [hs, ht]
    exact .inl ⟨c, s, rfl, hcd, h, by rw [ht]; rfl⟩

theorem Facing.exists_current (h : p.Facing more u s t) :
    ∃ c d, s.current = some c ∧ t.current = some d ∧ d.token = u := by
  have hu := h.2
  rcases rel_cases h.1.current with ⟨-, ht⟩ | ⟨c, d, hs, ht, -⟩
  · rw [ht] at hu
    cases hu
  · rw [ht] at hu
    exact ⟨c, d, hs, ht, Option.some.inj hu⟩

/-- Looking ahead, the second run may find its source ended behind the current token. -/
theorem peekSeen_lockstep :
    (p.tandem more).Lockstep (p.Facing more u) TokenStream.peekSeen TokenStream.peekSeen
      (fun c d s t => p.Met c.token d.token ∧ p.Facing more u s t)
      fun d t => p.stop d.token ∧ p.Last (· = u) t := by
  intro s t h
  obtain ⟨a, b, hs, ht, hb⟩ := h.exists_current
  rw [peekSeen_run hs, peekSeen_run ht]
  rcases rel_cases h.1.peeked with ⟨hs', ht'⟩ | ⟨c, d, hs', ht', hcd⟩
  · rw [hs', ht']
    rcases h.1.fetch with ⟨c, d, s', t', hfs, hft, hcd, hst, hsame⟩ |
      ⟨d, e, s', t', hfs, hft, hde⟩ | ⟨hitems, v, hfinal, hv⟩
    · rw [hfs, hft]
      refine .inl ⟨c, _, rfl, hcd, ?_, hsame.trans h.2⟩
      refine ⟨hst.feed, hst.header, hst.current, .some hcd, fun hn => ?_⟩
      rw [show t'.current = none from hn, h.2] at hsame
      cases hsame
    · rw [hfs, hft]
      exact .inl ⟨d, s', rfl, hde⟩
    · obtain ⟨header, hft⟩ := fetch_of_stop hitems hfinal hv
      rw [hft, ht]
      refine .inr ⟨hv, hitems, ⟨v, hfinal, hv⟩, ⟨_, rfl, ?_⟩, ?_⟩
      · rw [TokenStream.token_followedBy, hb]
      · intro c hc
        cases hc
        exact hv
  · rw [hs', ht']
    exact .inl ⟨c, s, rfl, hcd, h⟩

theorem advanceSeen_lockstep :
    (p.tandem more).Lockstep (p.Facing more u) TokenStream.advanceSeen TokenStream.advanceSeen
      (fun c d s t => p.Met c.token d.token ∧ p.Facing more d.token s t)
      fun d t => p.stop d.token ∧ p.Last p.stop t := by
  intro s t h
  obtain ⟨a, b, hs, ht, hb⟩ := h.exists_current
  rw [advanceSeen_run hs, advanceSeen_run ht]
  rcases rel_cases h.1.peeked with ⟨hs', ht'⟩ | ⟨c, d, hs', ht', hcd⟩
  · rw [hs', ht']
    rcases h.1.fetch with ⟨c, d, s', t', hfs, hft, hcd, hst, -⟩ | ⟨d, e, s', t', hfs, hft, hde⟩ |
      ⟨hitems, v, hfinal, hv⟩
    · rw [hfs, hft]
      refine .inl ⟨c, _, rfl, hcd, ?_, rfl⟩
      exact ⟨hst.feed, hst.header, .some hcd, .none, fun _ => rfl⟩
    · rw [hfs, hft]
      exact .inl ⟨d, s', rfl, hde⟩
    · obtain ⟨header, hft⟩ := fetch_of_stop hitems hfinal hv
      rw [hft]
      refine .inr ⟨hv, hitems, ⟨v, hfinal, hv⟩, ⟨_, rfl, hv⟩, ?_⟩
      intro c hc
      cases hc
  · rw [hs', ht']
    refine .inl ⟨c, _, rfl, hcd, ?_, rfl⟩
    exact ⟨h.1.feed, h.1.header, .some hcd, .none, fun _ => rfl⟩

theorem currentSeen_ends :
    (p.tandem more).Ends (p.Last q) TokenStream.currentSeen
      fun c t => q c.token ∧ p.Last (· = c.token) t := by
  intro t h
  obtain ⟨c, hc, hq⟩ := h.current
  rw [currentSeen_run, hc]
  exact ⟨hq, h.items, h.final, ⟨c, hc, rfl⟩, h.peeked⟩

theorem peekSeen_ends :
    (p.tandem more).Ends (p.Last q) TokenStream.peekSeen
      fun c t => p.stop c.token ∧ p.Last q t := by
  intro t h
  obtain ⟨b, hb, hq⟩ := h.current
  rw [peekSeen_run hb]
  cases hp : t.peeked with
  | some c => exact ⟨h.peeked c hp, h⟩
  | none =>
    obtain ⟨u, hfinal, hu⟩ := h.final
    obtain ⟨header, hft⟩ := fetch_of_stop h.items hfinal hu
    rw [hft, hb]
    refine ⟨hu, h.items, h.final, ⟨_, rfl, ?_⟩, ?_⟩
    · rwa [TokenStream.token_followedBy]
    · intro c hc
      cases hc
      exact hu

theorem advanceSeen_ends :
    (p.tandem more).Ends (p.Last q) TokenStream.advanceSeen
      fun c t => p.stop c.token ∧ p.Last p.stop t := by
  intro t h
  obtain ⟨b, hb, hq⟩ := h.current
  rw [advanceSeen_run hb]
  cases hp : t.peeked with
  | some c =>
    refine ⟨h.peeked c hp, h.items, h.final, ⟨c, rfl, h.peeked c hp⟩, ?_⟩
    intro d hd
    cases hd
  | none =>
    obtain ⟨u, hfinal, hu⟩ := h.final
    obtain ⟨header, hft⟩ := fetch_of_stop h.items hfinal hu
    rw [hft]
    refine ⟨hu, h.items, h.final, ⟨_, rfl, hu⟩, ?_⟩
    intro d hd
    cases hd

/-- Advancing begins with a look at the current token. -/
theorem advanceSeen_eq :
    TokenStream.advanceSeen = TokenStream.currentSeen >>= fun _ => TokenStream.advanceSeen := by
  funext s
  rw [bind_run, currentSeen_run]
  cases hc : s.current with
  | some c => rfl
  | none =>
    rw [TokenStream.advanceSeen, bind_run, currentSeen_run, hc]
    cases TokenStream.fetch s <;> rfl

/-- So does looking at the token behind it. -/
theorem peekSeen_eq :
    TokenStream.peekSeen = TokenStream.currentSeen >>= fun _ => TokenStream.peekSeen := by
  funext s
  rw [bind_run, currentSeen_run]
  cases hc : s.current with
  | some c => rfl
  | none =>
    rw [TokenStream.peekSeen, bind_run, currentSeen_run, hc]
    cases TokenStream.fetch s <;> rfl

theorem token_lockstep :
    (p.tandem more).Lockstep (p.Streams more) TokenStream.token TokenStream.token
      (fun a b s t => p.Met a b ∧ p.Facing more b s t) fun b t => p.stop b ∧ p.Last p.stop t :=
  currentSeen_lockstep.bind (fun _ _ => .pure fun _ _ h => h) fun _ => .pure fun _ h => h

theorem token_facing :
    (p.tandem more).Lockstep (p.Facing more u) TokenStream.token TokenStream.token
      (fun a b s t => (p.Met a b ∧ b = u) ∧ p.Facing more u s t) fun _ _ => False := by
  intro s t h
  obtain ⟨c, d, hs, ht, hu⟩ := h.exists_current
  have hcd : p.Met c.token d.token := by
    have hrel := h.1.current
    rw [hs, ht] at hrel
    cases hrel
    assumption
  have hs' : TokenStream.currentSeen s = .ok c s := by rw [currentSeen_run, hs]
  have ht' : TokenStream.currentSeen t = .ok d t := by rw [currentSeen_run, ht]
  rw [TokenStream.token, bind_run_ok hs', bind_run_ok ht']
  exact .inl ⟨c.token, s, rfl, ⟨hcd, hu⟩, h⟩

theorem peek_lockstep :
    (p.tandem more).Lockstep (p.Facing more u) TokenStream.peek TokenStream.peek
      (fun a b s t => p.Met a b ∧ p.Facing more u s t) fun b t => p.stop b ∧ p.Last (· = u) t :=
  peekSeen_lockstep.bind (fun _ _ => .pure fun _ _ h => h) fun _ => .pure fun _ h => h

theorem advance_lockstep :
    (p.tandem more).Lockstep (p.Streams more) TokenStream.advance TokenStream.advance
      (fun a b s t => p.Met a b ∧ p.Facing more b s t) fun b t => p.stop b ∧ p.Last p.stop t := by
  rw [TokenStream.advance, advanceSeen_eq]
  refine Tandem.Lockstep.bind ?_ (fun _ _ => .pure fun _ _ h => h) fun _ => .pure fun _ h => h
  refine currentSeen_lockstep.bind (fun c d => ?_) fun d => ?_
  · exact advanceSeen_lockstep.conseq (fun _ _ h => h.2) (fun _ _ _ _ h => h) fun _ _ h => h
  · exact advanceSeen_ends.conseq (fun _ h => h.2) fun _ _ h => h

theorem token_ends :
    (p.tandem more).Ends (p.Last q) TokenStream.token fun b t => q b ∧ p.Last (· = b) t :=
  currentSeen_ends.bind fun _ => .pure fun _ h => h

theorem peek_ends :
    (p.tandem more).Ends (p.Last q) TokenStream.peek fun b t => p.stop b ∧ p.Last q t :=
  peekSeen_ends.bind fun _ => .pure fun _ h => h

theorem advance_ends :
    (p.tandem more).Ends (p.Last q) TokenStream.advance fun b t => p.stop b ∧ p.Last p.stop t :=
  advanceSeen_ends.bind fun _ => .pure fun _ h => h

theorem Met.endOfInput {a b : Token} (h : p.Met a b) :
    p.Fails (.endOfInput a) (.endOfInput b) := .here h rfl rfl rfl

theorem Met.nestingTooDeep {a b : Token} (h : p.Met a b) :
    p.Fails (.nestingTooDeep a) (.nestingTooDeep b) := .here h rfl rfl rfl

theorem Met.invalidStatement {a b : Token} (h : p.Met a b) :
    p.Fails (.invalidStatement a) (.invalidStatement b) :=
  .here h (congrArg ReadFault.invalidStatement (Token.bare_congr h.signs_eq)) rfl rfl

theorem Met.unexpected {a b : Token} (h : p.Met a b) (pattern : TokenPattern) :
    p.Fails (.unexpected pattern a) (.unexpected pattern b) := by
  unfold ReadError.unexpected
  rw [Token.congr_signs Token.isEof (fun _ => rfl) h.signs_eq, Token.kind_congr h.signs_eq,
    Token.value_congr h.signs_eq]
  split
  · exact h.endOfInput
  · exact .here h rfl rfl rfl

theorem cut_endOfInput (h : p.stop u) : p.Cut (.endOfInput u) := ⟨u, h, .inl rfl⟩

theorem cut_unexpected (h : p.stop u) (pattern : TokenPattern) :
    p.Cut (.unexpected pattern u) := by
  rw [ReadError.unexpected, if_pos (p.eof_of_stop h)]
  exact cut_endOfInput h

/-! ## Trees -/

theorem accepts_congr {a b : Token} (h : a.signs = b.signs) (pattern : TokenPattern) :
    pattern.accepts a = pattern.accepts b := TokenPattern.accepts_congr (Token.bare_congr h) pattern

theorem expect_lockstep (pattern : TokenPattern) :
    (p.tandem more).Lockstep (p.Streams more) (TokenStream.expect pattern)
      (TokenStream.expect pattern) (fun a b s t => p.Met a b ∧ p.Facing more b s t)
      fun b t => p.stop b ∧ p.Last p.stop t := by
  refine token_lockstep.bind (fun a b s t h => ?_) fun b t h => ?_
  · obtain ⟨hab, hst⟩ := h
    rw [accepts_congr hab.signs_eq]
    split
    · exact .inl ⟨a, s, rfl, hab, hst⟩
    · exact .inl ⟨_, s, rfl, hab.unexpected pattern⟩
  · split
    · exact h
    · exact cut_unexpected h.1 pattern

theorem expect_ends {pattern : TokenPattern} (hq : ∀ u, q u → pattern.accepts u = true) :
    (p.tandem more).Ends (p.Last q) (TokenStream.expect pattern)
      fun b t => q b ∧ p.Last (· = b) t := by
  refine token_ends.bind fun b t h => ?_
  rw [if_pos (hq b h.1)]
  exact h

theorem token_keeps : (p.tandem more).Keeps TokenStream.token TokenStream.token p.Met :=
  token_lockstep.conseq (fun _ _ h => h) (fun _ _ _ _ h => ⟨h.1, h.2.1⟩) fun _ _ h => h.2

theorem advance_keeps : (p.tandem more).Keeps TokenStream.advance TokenStream.advance p.Met :=
  advance_lockstep.conseq (fun _ _ h => h) (fun _ _ _ _ h => ⟨h.1, h.2.1⟩) fun _ _ h => h.2

theorem expect_keeps (pattern : TokenPattern) :
    (p.tandem more).Keeps (TokenStream.expect pattern) (TokenStream.expect pattern) p.Met :=
  (expect_lockstep pattern).conseq (fun _ _ h => h) (fun _ _ _ _ h => ⟨h.1, h.2.1⟩) fun _ _ h => h.2

@[grind ←] theorem token_rests : (p.tandem more).Rests TokenStream.token :=
  token_ends.conseq (fun _ h => h) fun _ _ h => h.2.mono fun _ hu => hu ▸ h.1

@[grind ←] theorem advance_rests : (p.tandem more).Rests TokenStream.advance :=
  advance_ends.conseq (fun _ h => h) fun _ _ h => h.2

theorem token_bind_keeps {α β : Type} {f : Token → Streaming α} {g : Token → Streaming β}
    {Q : α → β → Prop} (hf : ∀ a b, p.Met a b → (p.tandem more).Keeps (f a) (g b) Q)
    (hg : ∀ b, p.stop b → (p.tandem more).Rests (g b)) :
    (p.tandem more).Keeps (TokenStream.token >>= f) (TokenStream.token >>= g) Q :=
  token_lockstep.bind (fun a b s t h => hf a b h.1 s t h.2.1) fun b t h => hg b h.1 t h.2

/-- At its end the second run meets nothing but the end. -/
theorem token_bind_rests {β : Type} {g : Token → Streaming β}
    (h : ∀ b, p.stop b → (p.tandem more).Rests (g b)) :
    (p.tandem more).Rests (TokenStream.token >>= g) :=
  token_ends.bind fun b t ht => h b ht.1 t (ht.2.mono fun _ hu => hu ▸ ht.1)

/-- Past the last token there is only the end. -/
theorem advance_bind_ends {β : Type} {g : Token → Streaming β}
    (h : ∀ b, (p.tandem more).Rests (g b)) :
    (p.tandem more).Ends (p.Last q) (TokenStream.advance >>= g) fun _ => p.Last p.stop :=
  advance_ends.bind fun b t ht => h b t ht.2

@[grind ←] theorem endOfInput_rests {β : Type} (h : p.stop u) :
    (p.tandem more).Rests (throw (.endOfInput u) : Streaming β) :=
  .throw fun _ _ => cut_endOfInput h

@[grind ←] theorem nestingTooDeep_rests {β : Type} :
    (p.tandem more).Rests (throw (.nestingTooDeep u) : Streaming β) :=
  .throw fun _ h => h.exists_stop.imp fun _ hu => ⟨hu, .inr rfl⟩

@[grind ←] theorem expect_rests (pattern : TokenPattern) :
    (p.tandem more).Rests (TokenStream.expect pattern) := by
  refine token_ends.bind fun b t h => ?_
  split
  · exact h.2.mono fun _ hu => hu ▸ h.1
  · exact cut_unexpected h.1 pattern

theorem Streams.remaining_eq (h : p.Streams more s t) :
    s.remaining = t.remaining + 3 * more.length := by
  have hweight : ∀ {c d : Seen}, p.Met c.token d.token → c.token.weight = d.token.weight :=
    fun hcd => Token.congr_signs Token.weight (fun _ => rfl) hcd.signs_eq
  unfold TokenStream.remaining
  rw [h.feed.size_eq]
  rcases rel_cases h.peeked with ⟨hs, ht⟩ | ⟨c, d, hs, ht, hcd⟩
  · rcases rel_cases h.current with ⟨hs', ht'⟩ | ⟨c, d, hs', ht', hcd⟩
    · rw [hs, ht, hs', ht']
      omega
    · simp only [hs, ht, hs', ht', hweight hcd]
      omega
  · simp only [hs, ht, hweight hcd]
    omega

/-- Both streams have progress to show or neither. -/
theorem remaining_lt_iff {s' t' : TokenStream} (h : p.Streams more s t)
    (h' : p.Streams more s' t') : s'.remaining < s.remaining ↔ t'.remaining < t.remaining := by
  rw [h.remaining_eq, h'.remaining_eq]
  omega

theorem bareAll_eq_of_forall₂ {ss ts : List TokenTree}
    (h : List.Forall₂ (fun a b => a.bare = b.bare) ss ts) :
    TokenTree.bareAll ss = TokenTree.bareAll ts := by
  induction h with
  | nil => rfl
  | cons hab _ ih => rw [TokenTree.bareAll, TokenTree.bareAll, hab, ih]

section Gather

variable {group : Streaming TokenTree} {ends : Nat → Token → Bool}

theorem gather_keeps
    (hgroup : (p.tandem more).Keeps group group fun a b => a.bare = b.bare)
    (hrest : (p.tandem more).Rests group) (hends : ∀ n t, ends n t = ends n t.signs) :
    (p.tandem more).Keeps (TokenStream.gather group ends) (TokenStream.gather group ends)
      fun as bs => TokenTree.bareAll as = TokenTree.bareAll bs := by
  refine Tandem.Keeps.mono (Q := List.Forall₂ fun a b => a.bare = b.bare) ?_
    fun _ _ => bareAll_eq_of_forall₂
  refine .collect (G := (· = ·)) (fun _ _ _ _ => remaining_lt_iff) (fun n m hn => ?_) (by grind) rfl
  rw [hn]
  refine token_keeps.bind (fun a b hab => ?_) (by grind)
  refine .ite ?_ (fun _ => ?_) fun _ => .ite ?_ (fun _ => ?_) fun _ => ?_
  · rw [Token.congr_signs (ends m) (hends m) hab.signs_eq]
  · exact .pure .none
  · rw [Token.congr_signs Token.isOpening (fun _ => rfl) hab.signs_eq]
  · exact hgroup.bind (fun _ _ h => .pure (.some ⟨h, rfl⟩)) (by grind)
  · refine advance_keeps.bind (fun _ _ _ => .pure (.some ⟨?_, ?_⟩)) (by grind)
    · exact congrArg TokenTree.leaf (Token.bare_congr hab.signs_eq)
    · exact Token.congr_signs (TokenStream.conditionalsAfter m) (fun _ => rfl) hab.signs_eq

@[grind ←] theorem gather_rests (hrest : (p.tandem more).Rests group) :
    (p.tandem more).Rests (TokenStream.gather group ends) := by
  unfold TokenStream.gather
  exact .collect (by grind) 0

/-- A token that is not the end of the list, before the end of the input. -/
theorem gather_ends (hrest : (p.tandem more).Rests group)
    (hends : ∀ u, q u → ends 0 u = false ∧ u.isOpening = false) :
    (p.tandem more).Ends (p.Last q) (TokenStream.gather group ends) fun _ => p.Last p.stop := by
  refine Tandem.Ends.collect (by grind) (token_ends.bind fun b t h => ?_)
  obtain ⟨hb, hopen⟩ := hends b h.1
  simp only [hb, hopen, Bool.false_eq_true, if_false]
  exact advance_bind_ends (by grind) t h.2

theorem treesUntil_keeps
    (hgroup : (p.tandem more).Keeps group group fun a b => a.bare = b.bare)
    (hrest : (p.tandem more).Rests group) (pattern : TokenPattern) :
    (p.tandem more).Keeps (TokenStream.treesUntil group pattern)
      (TokenStream.treesUntil group pattern)
      fun as bs => TokenTree.bareAll as = TokenTree.bareAll bs := by
  refine advance_keeps.bind (fun _ _ _ => ?_) (by grind [token_bind_rests])
  refine (gather_keeps hgroup hrest fun _ t => ?_).bind (fun as bs h => ?_)
    (by grind [token_bind_rests])
  · rw [accepts_congr (show t.signs = t.signs.signs from rfl)]
    rfl
  · refine token_bind_keeps (fun a b hab => ?_) (by grind)
    refine .ite ?_ (fun _ => .pure h) fun _ => .throw hab.endOfInput
    rw [accepts_congr hab.signs_eq]

@[grind ←] theorem treesUntil_rests (hrest : (p.tandem more).Rests group)
    (pattern : TokenPattern) : (p.tandem more).Rests (TokenStream.treesUntil group pattern) := by
  unfold TokenStream.treesUntil
  grind [token_bind_rests]

end Gather

@[grind ←] theorem groupWithin_rests (depth : Nat) :
    (p.tandem more).Rests (TokenStream.groupWithin depth) := by
  induction depth with
  | zero =>
    unfold TokenStream.groupWithin
    grind
  | succ depth ih =>
    unfold TokenStream.groupWithin
    grind

theorem groupWithin_keeps (depth : Nat) :
    (p.tandem more).Keeps (TokenStream.groupWithin depth) (TokenStream.groupWithin depth)
      fun a b => a.bare = b.bare := by
  induction depth with
  | zero =>
    unfold TokenStream.groupWithin
    exact (expect_keeps _).bind (fun _ _ hab => .throw hab.nestingTooDeep) (by grind)
  | succ depth ih =>
    unfold TokenStream.groupWithin
    refine (expect_keeps _).bind (fun a b hab => ?_) (by grind)
    rw [Token.value_congr hab.signs_eq]
    refine (treesUntil_keeps ih (groupWithin_rests depth) _).bind (fun as bs has => ?_) (by grind)
    refine token_keeps.bind (fun c d hcd => ?_) (by grind)
    refine advance_keeps.bind (fun _ _ _ => .pure ?_) (by grind)
    rw [TokenTree.bare, TokenTree.bare, Token.bare_congr hab.signs_eq, has,
      Token.bare_congr hcd.signs_eq]

/-- A group that the second source only opens. -/
theorem groupWithin_ends (hq : ∀ u, q u → TokenPattern.opening.accepts u = true) (depth : Nat) :
    (p.tandem more).Ends (p.Last q) (TokenStream.groupWithin depth) fun _ => p.Last p.stop := by
  cases depth with
  | zero =>
    unfold TokenStream.groupWithin
    exact (expect_ends hq).bind fun _ =>
      .throw fun _ h => h.2.exists_stop.imp fun _ hu => ⟨hu, .inr rfl⟩
  | succ depth =>
    unfold TokenStream.groupWithin TokenStream.treesUntil
    simp only [bind_assoc]
    exact (expect_ends hq).bind fun _ t h => advance_bind_ends (by grind [token_bind_rests]) t h.2

end Pairing

end ScriptOutline
