/-
A stream whose tokens are kept in one place.

A `SharedStream` names its fields as places in the list of all tokens it has fetched: the
current token, the one peeked at, the one before, the one held back behind a semicolon and
the one fetched last.  The comments behind a token are a cell that the token's place
shares with every field that points there, and `writes` lists the times a cell has been
written.  How many groups are open is counted in the stream.

`view` is the stream that a reader sees, and `Shown` says that an operation of the shared
stream does to it what the operation of `TokenStream` does.  It rests on `Sound`: nothing is
fetched while a peeked token waits, so the token fetched last is the current one then, and
its cell is the one to be written.
-/
import Mathlib.Data.List.Induction
import ScriptOutline.Proofs.Pairing

namespace ScriptOutline

open Semicolons

/-- A stream over one list of tokens.  Of its source it knows how often it has asked. -/
structure SharedStream where
  source : TokenFeed
  calls : Nat := 0
  tokens : List Token := []
  /-- Each time a cell was to be written, in order, with what for. -/
  writes : List (Place × List Comment) := []
  previous : Option Place := none
  current : Option Place := none
  peeked : Option Place := none
  /-- The token that waits behind a semicolon. -/
  held : Option Place := none
  /-- The place fetched last, be it a token of the source or a semicolon. -/
  last : Option Place := none
  header : ForHeader := {}
  /-- How many groups are being read. -/
  groupDepth : Nat := 0

abbrev Sharing := EStateM ReadError SharedStream

namespace SharedStream

/-- A source makes its tokens with empty cells, and nothing but the stream fills one. -/
def ofFeed (source : TokenFeed) : SharedStream := { source }

def tokenAt (s : SharedStream) (p : Place) : Token := p.read fun i => s.tokens[i]?.getD default

/-- What the cell of a place holds: the first that was written. -/
def comments (s : SharedStream) (p : Place) : Option (List Comment) := s.writes.lookup p

theorem comments_ofFeed (source : TokenFeed) (p : Place) : (ofFeed source).comments p = none := rfl

def semicolonDue (s : SharedStream) (next : Token) : Bool :=
  match s.last with
  | some p => !s.header.active && needsSemicolon (s.tokenAt p) next
  | none => false

/-- Keep a token of the source and hand its comments to the token fetched last. -/
def keep (s : SharedStream) (next : Token) : SharedStream :=
  { s with
    calls := s.calls + 1
    tokens := s.tokens ++ [next]
    writes := s.writes ++ (s.last.map fun p => (p, next.comments)).toList
    header := s.header.track next }

def fetch : Sharing Place := do
  let s ← get
  match s.held with
  | some p =>
    set { s with held := none, last := some p }
    return p
  | none =>
    match s.source.item s.calls with
    | .error e =>
      set { s with calls := s.calls + 1 }
      throw (.ofLexError e)
    | .ok next =>
      let i := s.tokens.length
      if s.semicolonDue next then
        set { s.keep next with held := some (.token i), last := some (.semicolon i) }
        return .semicolon i
      else
        set { s.keep next with last := some (.token i) }
        return .token i

def currentPlace : Sharing Place := do
  match (← get).current with
  | some p => return p
  | none =>
    let p ← fetch
    modify fun s => { s with current := some p }
    return p

def peekPlace : Sharing Place := do
  let _ ← currentPlace
  match (← get).peeked with
  | some p => return p
  | none =>
    let p ← fetch
    modify fun s => { s with peeked := some p }
    return p

def takePeeked : Sharing (Option Place) :=
  modifyGet fun s => (s.peeked, { s with peeked := none })

def advancePlace : Sharing Place := do
  let consumed ← currentPlace
  let next ← match ← takePeeked with
    | some p => pure p
    | none => fetch
  modify fun s => { s with previous := some consumed, current := some next }
  return next

def reading (x : Sharing Place) : Sharing Token := do
  let p ← x
  return (← get).tokenAt p

def token : Sharing Token := reading currentPlace

def peek : Sharing Token := reading peekPlace

def advance : Sharing Token := reading advancePlace

def expect (p : TokenPattern) : Sharing Token := do
  let t ← token
  if p.accepts t then return t else throw (.unexpected p t)

/-- A token with what its cell holds, which is not shown behind a semicolon that was put in. -/
def seen (s : SharedStream) (p : Place) : Seen :=
  { token := s.tokenAt p, after := if (s.tokenAt p).inserted then none else s.comments p }

/-- The stream as its reader sees it.  A token that is held back is still to come there. -/
def view (s : SharedStream) : TokenStream where
  feed := s.source.drop (if s.held.isSome then s.calls - 1 else s.calls)
  header := s.header
  previous := s.previous.map s.seen
  current := s.current.map s.seen
  peeked := s.peeked.map s.seen

def gather (group : Sharing TokenTree) (ends : Nat → Token → Bool) : Sharing (List TokenTree) :=
  Repeat.collect (fun s => s.view.remaining) (fun conditionals => do
    let t ← token
    if ends conditionals t then return none
    else if t.isOpening then return some (← group, conditionals)
    else
      let _ ← advance
      return some (.leaf t, TokenStream.conditionalsAfter conditionals t)) 0

def treesUntil (group : Sharing TokenTree) (p : TokenPattern) : Sharing (List TokenTree) := do
  let _ ← advance
  let trees ← gather group fun _ t => p.accepts t || t.isEof
  let t ← token
  if p.accepts t then return trees else throw (.endOfInput t)

/-- Count one more group while `x` runs, whatever comes of it. -/
def deeper {α : Type} (x : Sharing α) : Sharing α := fun s =>
  match x { s with groupDepth := s.groupDepth + 1 } with
  | .ok a s' => .ok a { s' with groupDepth := s'.groupDepth - 1 }
  | .error e s' => .error e { s' with groupDepth := s'.groupDepth - 1 }

/-- The group that the current token opens.  The count in the stream says whether it may be
read; `levels` only makes the recursion end. -/
def groupWithin : Nat → Sharing TokenTree
  | 0 => do throw (.nestingTooDeep (← expect .opening))
  | levels + 1 => do
    let opener ← expect .opening
    let s ← get
    if nestingLimit ≤ s.groupDepth then throw (.nestingTooDeep opener)
    else do
      let trees ← deeper
        (treesUntil (groupWithin levels) (.punctuation (closingOf opener.value)))
      let closer ← token
      let _ ← advance
      return .group opener trees closer

def group : Sharing TokenTree := groupWithin (nestingLimit + 1)

def skipUntil (p : TokenPattern) (stay : Bool) : Sharing (List TokenTree) := do
  let trees ← treesUntil group p
  if !stay then
    let _ ← advance
  return trees

/-! ## What is kept -/

/-- The cells that have been written once these tokens have been fetched. -/
def handOvers (tokens : List Token) : List (Place × List Comment) :=
  tokens.tail.mapIdx fun i t => (.token i, t.comments)

/-- Whether nothing that is still to be fetched changes the cell of a place, where `n` tokens
have been fetched. -/
def settled (n : Nat) : Place → Prop
  | .token i => i + 1 < n
  | .semicolon i => i < n

/-- What was fetched last: nothing yet, a token of the source, or a semicolon behind which one is
held. -/
inductive Latest (s : SharedStream) : Prop where
  | fresh (tokens : s.tokens = []) (held : s.held = none) (last : s.last = none)
  | token {ts : List Token} {t : Token} (tokens : s.tokens = ts ++ [t]) (held : s.held = none)
    (last : s.last = some (.token ts.length))
  | semicolon {ts : List Token} {t : Token} {n : Nat} (tokens : s.tokens = ts ++ [t])
    (held : s.held = some (.token ts.length)) (last : s.last = some (.semicolon ts.length))
    (calls : s.calls = n + 1) (given : s.source.item n = .ok t)
    (tracked : s.header.track t = s.header)

/-- The stream has what its source gave, and the cells of all these tokens but the last have been
written. -/
structure Stored (s : SharedStream) : Prop where
  given : s.tokens = (List.range s.calls).filterMap fun i => (s.source.item i).toOption
  writes : s.writes = handOvers s.tokens
  latest : s.Latest

/-- Between two operations the token fetched last is the last one in the window. -/
structure Sound (s : SharedStream) : Prop extends Stored s where
  window : s.last = s.peeked.or s.current
  inOrder : s.current = none → s.peeked = none
  previous : ∀ p ∈ s.previous, settled s.tokens.length p
  current : s.peeked.isSome → ∀ p ∈ s.current, settled s.tokens.length p

/-- A place has been fetched, and nothing else in the window has changed. -/
structure Fetched (s : SharedStream) (p : Place) (s' : SharedStream) : Prop extends Stored s' where
  last : s'.last = some p
  previous : s'.previous = s.previous
  current : s'.current = s.current
  peeked : s'.peeked = s.peeked
  source : s'.source = s.source
  calls : s.calls ≤ s'.calls
  depth : s'.groupDepth = s.groupDepth
  settled : ∀ q, q ∈ s.previous ∨ q ∈ s.current → settled s'.tokens.length q

variable {s s' : SharedStream} {p q : Place} {t next : Token} {ts : List Token}

theorem Latest.of_not_held (h : s.Latest) (hheld : s.held = none) :
    (s.tokens = [] ∧ s.last = none) ∨
      ∃ ts t, s.tokens = ts ++ [t] ∧ s.last = some (.token ts.length) := by
  cases h with
  | fresh tokens _ last => exact .inl ⟨tokens, last⟩
  | token tokens _ last => exact .inr ⟨_, _, tokens, last⟩
  | semicolon _ held =>
    rw [hheld] at held
    cases held

theorem Latest.of_held (h : s.Latest) (hheld : s.held = some p) :
    ∃ ts t n, s.tokens = ts ++ [t] ∧ p = .token ts.length ∧
      s.last = some (.semicolon ts.length) ∧ s.calls = n + 1 ∧ s.source.item n = .ok t ∧
      s.header.track t = s.header := by
  cases h with
  | fresh _ held =>
    rw [hheld] at held
    cases held
  | token _ held =>
    rw [hheld] at held
    cases held
  | semicolon tokens held last calls given tracked =>
    rw [hheld] at held
    cases held
    exact ⟨_, _, _, tokens, rfl, last, calls, given, tracked⟩

theorem handOvers_append (hts : ts ≠ []) (t : Token) :
    handOvers (ts ++ [t]) = handOvers ts ++ [(.token (ts.length - 1), t.comments)] := by
  rw [handOvers, List.tail_append_of_ne_nil hts, List.mapIdx_concat, List.length_tail, handOvers]

theorem lookup_token (ts : List Token) (i : Nat) :
    (ts.mapIdx fun i t => (Place.token i, t.comments)).lookup (.token i) =
      ts[i]?.map (·.comments) := by
  induction ts using List.reverseRecOn with
  | nil => rfl
  | append_singleton ts t ih =>
    rw [List.mapIdx_concat, List.lookup_append, ih]
    rcases Nat.lt_trichotomy i ts.length with hi | rfl | hi
    · rw [List.getElem?_append_left hi, List.getElem?_eq_getElem hi]
      rfl
    · simp
    · have hlast : List.lookup (Place.token i) [(Place.token ts.length, t.comments)] = none := by
        rw [List.lookup_eq_none_iff]
        intro x hx
        cases List.mem_singleton.1 hx
        exact bne_iff_ne.2 fun h => Nat.ne_of_gt hi (Place.token.inj h)
      rw [hlast, List.getElem?_eq_none (Nat.le_of_lt hi),
        List.getElem?_eq_none (by simpa using Nat.succ_le_of_lt hi)]
      rfl

theorem lookup_semicolon (ts : List Token) (i : Nat) :
    (ts.mapIdx fun i t => (Place.token i, t.comments)).lookup (.semicolon i) = none := by
  rw [List.lookup_eq_none_iff]
  intro x hx
  obtain ⟨j, -, rfl⟩ := List.mem_mapIdx.1 hx
  rfl

theorem Stored.comments_token (h : s.Stored) (i : Nat) :
    s.comments (.token i) = s.tokens[i + 1]?.map (·.comments) := by
  rw [comments, h.writes, handOvers, lookup_token, List.getElem?_tail]

theorem Stored.comments_semicolon (h : s.Stored) (i : Nat) : s.comments (.semicolon i) = none := by
  rw [comments, h.writes, handOvers, lookup_semicolon]

/-! ## Fetching -/

theorem tokenAt_append (ht : s'.tokens = s.tokens ++ ts) (hp : settled s.tokens.length p) :
    s'.tokenAt p = s.tokenAt p := by
  have hread {i : Nat} (hi : i < s.tokens.length) :
      s'.tokens[i]?.getD default = s.tokens[i]?.getD default := by
    rw [ht, List.getElem?_append_left hi]
  cases p with
  | token i => exact hread (Nat.lt_of_succ_lt hp)
  | semicolon i => exact congrArg Token.semicolonBefore (hread hp)

/-- What is seen at a settled place does not change any more. -/
theorem Stored.seen_eq (h : s.Stored) (h' : s'.Stored) (ht : s'.tokens = s.tokens ++ ts)
    (hp : settled s.tokens.length p) : s'.seen p = s.seen p := by
  have hcell : s'.comments p = s.comments p := by
    cases p with
    | token i =>
      rw [h.comments_token, h'.comments_token, ht, List.getElem?_append_left hp]
    | semicolon i => rw [h.comments_semicolon, h'.comments_semicolon]
  simp only [seen, tokenAt_append ht hp, hcell]

theorem Stored.seen_token (h : s.Stored) (ht : s.tokens = ts ++ [t]) :
    s.seen (.token ts.length) = { token := t } := by
  have hread : s.tokenAt (.token ts.length) = t := by
    simp [tokenAt, Place.read, ht]
  have hcell : s.comments (.token ts.length) = none := by
    rw [h.comments_token, ht, List.getElem?_eq_none (by simp)]
    rfl
  rw [seen, hread, hcell, ite_self]

theorem Stored.seen_semicolon (h : s.Stored) (ht : s.tokens = ts ++ [t]) :
    s.seen (.semicolon ts.length) = { token := .semicolonBefore t } := by
  have hread : s.tokenAt (.semicolon ts.length) = .semicolonBefore t := by
    simp [tokenAt, Place.read, ht]
  rw [seen, hread, h.comments_semicolon, ite_self]

/-- Handing comments to the token fetched last. -/
theorem seen_followedBy (h : s.Stored) (h' : s'.Stored) (ht : s.tokens = ts ++ [t])
    (ht' : s'.tokens = s.tokens ++ [next]) :
    (s.seen (.token ts.length)).followedBy next = s'.seen (.token ts.length) := by
  have hread : s'.tokenAt (.token ts.length) = t := by
    simp [tokenAt, Place.read, ht, ht']
  have hcell : s'.comments (.token ts.length) = some next.comments := by
    rw [h'.comments_token, ht', ht]
    simp
  rw [h.seen_token ht, seen, hread, hcell, Seen.followedBy]
  cases t.inserted <;> rfl

theorem followedBy_semicolon (i : Nat) (t : Token) :
    (s.seen (.semicolon i)).followedBy t = s.seen (.semicolon i) := rfl

theorem fetch_of_held (h : s.held = some p) :
    fetch s = .ok p { s with held := none, last := some p } := by
  simp only [fetch, bind_run, get_run, h, set_run, pure_run]

theorem fetch_of_fault {e : LexError} (h : s.held = none) (he : s.source.item s.calls = .error e) :
    fetch s = .error (.ofLexError e) { s with calls := s.calls + 1 } := by
  simp only [fetch, bind_run, get_run, h, he, set_run, throw_run]

theorem fetch_of_token (h : s.held = none) (hn : s.source.item s.calls = .ok next) :
    fetch s =
      if s.semicolonDue next then
        .ok (.semicolon s.tokens.length)
          { s.keep next with
            held := some (.token s.tokens.length)
            last := some (.semicolon s.tokens.length) }
      else
        .ok (.token s.tokens.length)
          { s.keep next with last := some (.token s.tokens.length) } := by
  simp only [fetch, bind_run, get_run, h, hn]
  split <;> simp only [bind_run, set_run, pure_run]

theorem settled_mono {m n : Nat} (h : m ≤ n) (hp : settled m p) : settled n p := by
  cases p with
  | token i => exact Nat.lt_of_lt_of_le hp h
  | semicolon i => exact Nat.lt_of_lt_of_le hp h

theorem Sound.last_eq (hs : s.Sound) (hp : s.peeked = none) : s.last = s.current := by
  rw [hs.window, hp, Option.none_or]

theorem Stored.given_keep (h : s.Stored) (hn : s.source.item s.calls = .ok next) :
    (s.keep next).tokens =
      (List.range (s.keep next).calls).filterMap fun i => (s.source.item i).toOption := by
  have hlast : (s.source.item s.calls).toOption = some next := by rw [hn]; rfl
  simp only [keep, List.range_succ, List.filterMap_append, ← h.given, List.filterMap_cons, hlast,
    List.filterMap_nil]

theorem Stored.writes_keep (h : s.Stored) (hheld : s.held = none) :
    (s.keep next).writes = handOvers (s.keep next).tokens := by
  rcases h.latest.of_not_held hheld with ⟨tokens, last⟩ | ⟨ts, t, tokens, last⟩
  · simp [keep, h.writes, tokens, last, handOvers]
  · have hne : s.tokens ≠ [] := by simp [tokens]
    have hlen : s.tokens.length - 1 = ts.length := by simp [tokens]
    simp only [keep, h.writes, last, handOvers_append hne, hlen, Option.map_some,
      Option.toList_some]

/-- Behind one more token of the source the cells of all places in the window are settled. -/
theorem Sound.settled_keep (hs : s.Sound) (hp : s.peeked = none) (hheld : s.held = none)
    (hq : q ∈ s.previous ∨ q ∈ s.current) : settled (s.keep next).tokens.length q := by
  have hlen : (s.keep next).tokens.length = s.tokens.length + 1 := List.length_append
  rcases hq with hq | hq
  · rw [hlen]
    exact settled_mono (Nat.le_succ _) (hs.previous q hq)
  · rw [← hs.last_eq hp] at hq
    rcases hs.latest.of_not_held hheld with ⟨-, last⟩ | ⟨ts, t, tokens, last⟩
    · rw [last] at hq
      cases hq
    · rw [last] at hq
      cases hq
      rw [hlen, tokens, List.length_append]
      exact Nat.lt_succ_self _

/-- Two outcomes that are alike: `R` relates the results, and `E` holds of the stream behind a
failure. -/
def Shown {α β : Type} (R : α → β → SharedStream → Prop) (E : SharedStream → Prop) :
    EStateM.Result ReadError SharedStream α → EStateM.Result ReadError TokenStream β → Prop
  | .ok a s, .ok b t => t = s.view ∧ R a b s
  | .error e s, .error d t => d = e ∧ t = s.view ∧ E s
  | _, _ => False

/-- The stream has come from `start` and is between two operations, inside so many groups. -/
structure Ready (start : SharedStream) (depth : Nat) (s : SharedStream) : Prop where
  sound : s.Sound
  source : s.source = start.source
  calls : start.calls ≤ s.calls
  count : s.groupDepth = depth

/-- Fetching does the same to both streams, and gives the place of what is seen. -/
def FetchesAlike (s : SharedStream) : Prop :=
  Shown (fun p c s' => c = s'.seen p ∧ Fetched s p s') (Ready s s.groupDepth) (fetch s)
    (TokenStream.fetch s.view)

theorem Sound.fetches_held (hs : s.Sound) (hp : s.peeked = none) (hheld : s.held = some p) :
    s.FetchesAlike := by
  obtain ⟨ts, t, n, tokens, rfl, last, calls, given, tracked⟩ := hs.latest.of_held hheld
  have hcurrent : s.current = some (.semicolon ts.length) := by rw [← hs.last_eq hp, last]
  have hfeed : s.view.feed = s.source.drop n := by
    simp only [view, hheld, calls, Option.isSome_some, if_true, Nat.add_sub_cancel]
  have hn : s.view.feed.next.1 = .ok t := by rw [hfeed, TokenFeed.next_drop_fst, given]
  have hdue : s.view.semicolonDue t = false := by
    simp [TokenStream.semicolonDue, view, hcurrent, hs.seen_semicolon tokens, needsSemicolon,
      Token.semicolonBefore, Token.isPunctuation]
  have hstored : Stored { s with held := none, last := some (.token ts.length) } :=
    ⟨hs.given, hs.writes, .token tokens rfl rfl⟩
  rw [FetchesAlike, fetch_of_held hheld, TokenStream.fetch_run hn, hdue]
  refine ⟨?_, (hstored.seen_token tokens).symm, hstored, rfl, rfl, rfl, rfl, rfl,
    Nat.le_refl _, rfl, ?_⟩
  · have hfollow : s.view.current.map (fun c => c.followedBy t) = s.view.current := by
      simp only [view, hcurrent, Option.map_some, followedBy_semicolon]
    -- the header has tracked the token already
    have htrack : s.view.header.track t = s.view.header := tracked
    have hnext : s.view.feed.next.2 = s.source.drop s.calls := by
      rw [hfeed, calls, TokenFeed.drop]
    rw [hfollow, htrack, hnext]
    rfl
  · rintro q (hq | hq)
    · exact hs.previous q hq
    · rw [hcurrent] at hq
      cases hq
      show ts.length < s.tokens.length
      rw [tokens, List.length_append]
      exact Nat.lt_succ_self _

theorem view_current (h : s.current = some p) : s.view.current = some (s.seen p) :=
  congrArg (Option.map s.seen) h

theorem view_current_none (h : s.current = none) : s.view.current = none :=
  congrArg (Option.map s.seen) h

theorem view_peeked (h : s.peeked = some p) : s.view.peeked = some (s.seen p) :=
  congrArg (Option.map s.seen) h

theorem view_peeked_none (h : s.peeked = none) : s.view.peeked = none :=
  congrArg (Option.map s.seen) h

theorem view_feed (hheld : s.held = none) : s.view.feed = s.source.drop s.calls := by
  simp only [view, hheld, Option.isSome_none, Bool.false_eq_true, if_false]

theorem Sound.fetches_fault {e : LexError} (hs : s.Sound) (hheld : s.held = none)
    (he : s.source.item s.calls = .error e) : s.FetchesAlike := by
  have hnext : s.view.feed.next.1 = .error e := by
    rw [view_feed hheld, TokenFeed.next_drop_fst, he]
  rw [FetchesAlike, fetch_of_fault hheld he, Pairing.fetch_of_error hnext, view_feed hheld]
  refine ⟨rfl, ?_, ⟨⟨?_, hs.writes, ?_⟩, hs.window, hs.inOrder, hs.previous, hs.current⟩, rfl,
    Nat.le_succ _, rfl⟩
  · simp only [view, hheld]
    rfl
  · have hnone : (s.source.item s.calls).toOption = none := by rw [he]; rfl
    simp only [List.range_succ, List.filterMap_append, ← hs.given, List.filterMap_cons, hnone,
      List.filterMap_nil, List.append_nil]
  · rcases hs.latest.of_not_held hheld with ⟨tokens, last⟩ | ⟨ts, t, tokens, last⟩
    · exact .fresh tokens hheld last
    · exact .token tokens hheld last

theorem Sound.semicolonDue_eq (hs : s.Sound) (hp : s.peeked = none) (next : Token) :
    s.view.semicolonDue next = s.semicolonDue next := by
  rw [semicolonDue, hs.last_eq hp, TokenStream.semicolonDue]
  cases hc : s.current <;> simp [view, hc, seen]

/-- Keeping one more token of the source changes what is seen as fetching it does. -/
theorem Sound.view_kept (hs : s.Sound) (hp : s.peeked = none) (hheld : s.held = none)
    (h' : s'.Stored) (htokens : s'.tokens = s.tokens ++ [next])
    (hheader : s'.header = s.header.track next) (hprevious : s'.previous = s.previous)
    (hcurrent : s'.current = s.current) (hpeeked : s'.peeked = s.peeked) :
    s'.view =
      { s.view with
        feed := s'.view.feed
        current := s.view.current.map fun c => c.followedBy next
        header := s.view.header.track next } := by
  have hprev : s.previous.map s'.seen = s.previous.map s.seen :=
    Option.map_congr fun p hp => hs.seen_eq h' htokens (hs.previous p hp)
  have hfollow : (s.current.map s.seen).map (fun c => c.followedBy next) =
      s.current.map s'.seen := by
    rw [← hs.last_eq hp]
    rcases hs.latest.of_not_held hheld with ⟨-, last⟩ | ⟨ts, t, tokens, last⟩
    · simp [last]
    · simp [last, seen_followedBy hs.toStored h' tokens htokens]
  simp only [view, hheader, hprevious, hcurrent, hpeeked, hprev, hfollow, hp, Option.map_none]

theorem Sound.fetches_token (hs : s.Sound) (hp : s.peeked = none) (hheld : s.held = none)
    (hn : s.source.item s.calls = .ok next) : s.FetchesAlike := by
  have hnext : s.view.feed.next.1 = .ok next := by
    rw [view_feed hheld, TokenFeed.next_drop_fst, hn]
  rw [FetchesAlike, fetch_of_token hheld hn, TokenStream.fetch_run hnext, hs.semicolonDue_eq hp]
  cases hdue : s.semicolonDue next with
  | true =>
    have htrack : (s.header.track next).track next = s.header.track next := by
      refine ForHeader.track_track ?_ next
      simp only [semicolonDue] at hdue
      split at hdue
      · simp only [Bool.and_eq_true, Bool.not_eq_true'] at hdue
        exact hdue.1
      · cases hdue
    have hstored : Stored { s.keep next with
        held := some (.token s.tokens.length), last := some (.semicolon s.tokens.length) } :=
      ⟨hs.given_keep hn, hs.writes_keep hheld, .semicolon rfl rfl rfl rfl hn htrack⟩
    refine ⟨?_, (hstored.seen_semicolon rfl).symm, hstored, rfl, rfl, rfl, rfl, rfl,
      Nat.le_succ _, rfl, fun q => hs.settled_keep hp hheld⟩
    rw [hs.view_kept hp hheld hstored rfl rfl rfl rfl rfl, view_feed hheld]
    rfl
  | false =>
    have hstored : Stored { s.keep next with last := some (.token s.tokens.length) } :=
      ⟨hs.given_keep hn, hs.writes_keep hheld, .token rfl hheld rfl⟩
    refine ⟨?_, (hstored.seen_token rfl).symm, hstored, rfl, rfl, rfl, rfl, rfl,
      Nat.le_succ _, rfl, fun q => hs.settled_keep hp hheld⟩
    rw [hs.view_kept hp hheld hstored rfl rfl rfl rfl rfl, view_feed hheld, view_feed]
    · rfl
    · exact hheld

/-- Where no peeked token waits, fetching is alike. -/
theorem Sound.fetches (hs : s.Sound) (hp : s.peeked = none) : s.FetchesAlike := by
  cases hheld : s.held with
  | some p => exact hs.fetches_held hp hheld
  | none =>
    cases hn : s.source.item s.calls with
    | error e => exact hs.fetches_fault hheld hn
    | ok next => exact hs.fetches_token hp hheld hn

theorem Shown.cases {α β : Type} {R : α → β → SharedStream → Prop} {E : SharedStream → Prop}
    {o : EStateM.Result ReadError SharedStream α} {o' : EStateM.Result ReadError TokenStream β}
    (h : Shown R E o o') :
    (∃ a b s, o = .ok a s ∧ o' = .ok b s.view ∧ R a b s) ∨
      ∃ e s, o = .error e s ∧ o' = .error e s.view ∧ E s := by
  cases o with
  | ok a s =>
    cases o' with
    | ok b t =>
      obtain ⟨rfl, hr⟩ := h
      exact .inl ⟨a, b, s, rfl, rfl, hr⟩
    | error d t => exact h.elim
  | error e s =>
    cases o' with
    | ok b t => exact h.elim
    | error d t =>
      obtain ⟨rfl, rfl, he⟩ := h
      exact .inr ⟨_, s, rfl, rfl, he⟩

/-- Where the window points does not matter to what is kept. -/
theorem Stored.repoint (h : s.Stored) (previous current peeked : Option Place) (depth : Nat) :
    Stored { s with previous, current, peeked, groupDepth := depth } := by
  refine ⟨h.given, h.writes, ?_⟩
  cases h.latest with
  | fresh tokens held last => exact .fresh tokens held last
  | token tokens held last => exact .token tokens held last
  | semicolon tokens held last calls given tracked =>
    exact .semicolon tokens held last calls given tracked

theorem Fetched.sound_current (hf : Fetched s p s') (hp : s.peeked = none) :
    Sound { s' with current := some p } where
  toStored := hf.repoint _ _ _ _
  window := by
    rw [hf.last, hf.peeked, hp]
    rfl
  inOrder := nofun
  previous q hq := by
    rw [hf.previous] at hq
    exact hf.settled q (.inl hq)
  current h := by
    rw [hf.peeked, hp] at h
    cases h

theorem Fetched.sound_peeked (hf : Fetched s p s') (hc : s.current = some q) :
    Sound { s' with peeked := some p } where
  toStored := hf.repoint _ _ _ _
  window := by
    rw [hf.last]
    rfl
  inOrder h := by
    rw [hf.current, hc] at h
    cases h
  previous q hq := by
    rw [hf.previous] at hq
    exact hf.settled q (.inl hq)
  current _ q hq := by
    rw [hf.current] at hq
    exact hf.settled q (.inr hq)

theorem Fetched.sound_advance (hf : Fetched s p s') (hp : s.peeked = none)
    (hc : s.current = some q) : Sound { s' with previous := some q, current := some p } where
  toStored := hf.repoint _ _ _ _
  window := by
    rw [hf.last, hf.peeked, hp]
    rfl
  inOrder := nofun
  previous q' hq := by
    cases hq
    exact hf.settled q (.inr hc)
  current h := by
    rw [hf.peeked, hp] at h
    cases h

/-- Moving on to a token that has been peeked at. -/
theorem Sound.advance (hs : s.Sound) (hp : s.peeked = some p) (hc : s.current = some q) :
    Sound { s with previous := some q, current := some p, peeked := none } where
  toStored := hs.repoint _ _ _ _
  window := by
    rw [hs.window, hp]
    rfl
  inOrder := nofun
  previous q' hq := by
    cases hq
    exact hs.current (by rw [hp]; rfl) q hc
  current := nofun

theorem currentPlace_run (s : SharedStream) :
    currentPlace s =
      match s.current with
      | some p => .ok p s
      | none =>
        match fetch s with
        | .ok p s' => .ok p { s' with current := some p }
        | .error e s' => .error e s' := by
  unfold currentPlace
  rw [bind_run_ok (get_run s)]
  cases s.current with
  | some p => rfl
  | none =>
    show (fetch >>= _) s = _
    rw [bind_run]
    cases fetch s <;> rfl

theorem peekPlace_run (h : s.current = some q) :
    peekPlace s =
      match s.peeked with
      | some p => .ok p s
      | none =>
        match fetch s with
        | .ok p s' => .ok p { s' with peeked := some p }
        | .error e s' => .error e s' := by
  unfold peekPlace
  rw [bind_run_ok (show currentPlace s = .ok q s by rw [currentPlace_run, h]),
    bind_run_ok (get_run s)]
  cases s.peeked with
  | some p => rfl
  | none =>
    show (fetch >>= _) s = _
    rw [bind_run]
    cases fetch s <;> rfl

theorem advancePlace_run (h : s.current = some q) :
    advancePlace s =
      match s.peeked with
      | some p => .ok p { s with previous := some q, current := some p, peeked := none }
      | none =>
        match fetch s with
        | .ok p s' => .ok p { s' with previous := some q, current := some p }
        | .error e s' => .error e s' := by
  unfold advancePlace
  rw [bind_run_ok (show currentPlace s = .ok q s by rw [currentPlace_run, h])]
  have htake : takePeeked s = .ok s.peeked { s with peeked := none } := rfl
  rw [bind_run_ok htake]
  cases hp : s.peeked with
  | some p => rfl
  | none =>
    have hsame : { s with peeked := none } = s := by
      cases s
      cases hp
      rfl
    rw [hsame]
    show (fetch >>= _) s = _
    rw [bind_run]
    cases fetch s <;> rfl

variable {start : SharedStream} {depth : Nat}

theorem Ready.trans (h : Ready start depth s) (h' : Ready s s.groupDepth s') :
    Ready start depth s' :=
  ⟨h'.sound, h'.source.trans h.source, Nat.le_trans h.calls h'.calls, h'.count.trans h.count⟩

/-- A sound stream that only has more in its window than another one behind a fetch. -/
theorem Fetched.ready (hf : Fetched s p s') {previous current peeked : Option Place}
    (hs : Sound { s' with previous, current, peeked }) :
    Ready s s.groupDepth { s' with previous, current, peeked } :=
  ⟨hs, hf.source, hf.calls, hf.depth⟩

theorem currentPlace_mirrors (hs : Ready start depth s) :
    Shown (fun p c s' => c = s'.seen p ∧ Ready start depth s' ∧ s'.current = some p)
      (Ready start depth) (currentPlace s) (TokenStream.currentSeen s.view) := by
  rw [currentPlace_run, Pairing.currentSeen_run]
  cases hc : s.current with
  | some p =>
    rw [view_current hc]
    exact ⟨rfl, rfl, hs, hc⟩
  | none =>
    have hp := hs.sound.inOrder hc
    rw [view_current_none hc]
    rcases (hs.sound.fetches hp).cases with ⟨p, c, s', hx, hy, rfl, hf⟩ | ⟨e, s', hx, hy, he⟩
    · rw [hx, hy]
      exact ⟨rfl, rfl, hs.trans (hf.ready (hf.sound_current hp)), rfl⟩
    · rw [hx, hy]
      exact ⟨rfl, rfl, hs.trans he⟩

theorem peekPlace_mirrors_looked (hs : Ready start depth s) (hc : s.current = some q) :
    Shown (fun p c s' => c = s'.seen p ∧ Ready start depth s') (Ready start depth) (peekPlace s)
      (TokenStream.peekSeen s.view) := by
  rw [peekPlace_run hc, Pairing.peekSeen_run (view_current hc)]
  cases hp : s.peeked with
  | some p =>
    rw [view_peeked hp]
    exact ⟨rfl, rfl, hs⟩
  | none =>
    rw [view_peeked_none hp]
    rcases (hs.sound.fetches hp).cases with ⟨p, c, s', hx, hy, rfl, hf⟩ | ⟨e, s', hx, hy, he⟩
    · rw [hx, hy]
      exact ⟨rfl, rfl, hs.trans (hf.ready (hf.sound_peeked hc))⟩
    · rw [hx, hy]
      exact ⟨rfl, rfl, hs.trans he⟩

theorem advancePlace_mirrors_looked (hs : Ready start depth s) (hc : s.current = some q) :
    Shown (fun p c s' => c = s'.seen p ∧ Ready start depth s') (Ready start depth) (advancePlace s)
      (TokenStream.advanceSeen s.view) := by
  rw [advancePlace_run hc, Pairing.advanceSeen_run (view_current hc)]
  cases hp : s.peeked with
  | some p =>
    rw [view_peeked hp, view_current hc]
    exact ⟨rfl, rfl, hs.sound.advance hp hc, hs.source, hs.calls, hs.count⟩
  | none =>
    rw [view_peeked_none hp]
    rcases (hs.sound.fetches hp).cases with ⟨p, c, s', hx, hy, rfl, hf⟩ | ⟨e, s', hx, hy, he⟩
    · rw [hx, hy]
      refine ⟨?_, rfl, hs.trans (hf.ready (hf.sound_advance hp hc))⟩
      simp only [view, hf.current, hc, hf.peeked, hp, Option.map_some, Option.map_none]
      rfl
    · rw [hx, hy]
      exact ⟨rfl, rfl, hs.trans he⟩

end SharedStream

end ScriptOutline
