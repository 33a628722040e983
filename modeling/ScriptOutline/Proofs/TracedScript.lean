/-
Every statement and every script leads along a derivation.

From the lemmas for the four readers of a level follows `traced_within`, by induction on the
levels.  A script that is read ends with an end of the input, so its source has one, wherever
it comes from, and `Script.derivation` holds of every source.
-/
import ScriptOutline.Proofs.Traced

namespace ScriptOutline

open TokenTree

namespace Statement

open Reader Input

variable {i : Input} {n : Nat} {x y z : Stage} {inner : Readers}

theorem terminator_leads : i.Leads x terminator fun _ y => ∃ k, x.index ≤ k ∧ y = x.move k := by
  refine .token (.ite (fun hsemicolon => ?_) fun _ => .ite (fun _ => ?_) fun _ => ?_)
  · exact .advance (Token.isEof_of_isPunctuation hsemicolon) (.pure ⟨_, Nat.le_succ _, rfl⟩)
  · exact .pure ⟨x.index, Nat.le_refl _, rfl⟩
  · exact .expect fun _ => .pure ⟨x.index, Nat.le_refl _, rfl⟩

theorem afterComma_repeats {α : Type} {item : Reader α} {f : α → List Node}
    {Q : Stage → List α → Stage → Prop}
    (hitem : ∀ x, i.Leads x item fun a y => x.index < y.index ∧ Reads i.met n x (f a) y)
    (hnil : ∀ x, Q x [] x)
    (hcons : ∀ x y z a as, Reads i.met n x (f a) y → Q y as z → Q x (a :: as) z) :
    i.Repeats (afterComma item) Q := by
  intro x
  refine .token (.ite (fun hcomma => ?_) fun _ => .pure ⟨rfl, hnil x⟩)
  refine .advance (Token.isEof_of_isPunctuation hcomma) ((hitem _).bind fun a y ha => .pure ?_)
  obtain ⟨hlt, ha⟩ := Reads.from_next ha
  exact ⟨hlt, fun as z has => hcons x y z a as ha has⟩

theorem expressions_leads (h : i.Traced n inner) :
    i.Leads x (expressions inner) fun ns y => x.index < y.index ∧ Reads i.met n x ns y := by
  have hmore : i.Repeats (afterComma inner.expression) fun x ns y => Reads i.met n x ns y :=
    afterComma_repeats h.expression (fun _ => .nil) fun _ _ _ _ _ hn hns => hn.cons hns
  refine (h.expression x).bind fun first y hfirst => (hmore.many y).bind fun more z hmore => ?_
  refine terminator_leads.bind ?_
  rintro _ _ ⟨k, hk, rfl⟩
  have hlt := hfirst.1
  have hle := hmore.index_le
  refine .pure ⟨?_, (hfirst.2.cons hmore).behind hk⟩
  show x.index < k
  omega

theorem functionDeclaration_leads (h : i.Traced n inner) (heof : (i.met x.index).isEof = false) :
    i.Leads x (functionDeclaration inner) fun ns y =>
      x.index < y.index ∧ Reads i.met (n + 2) x ns y := by
  refine .token (.peek heof (.ite (fun _ => .throw) fun hname => ?_))
  have hname : (i.met x.next.index).kind = .name := by simpa using hname
  refine (Expression.function_leads h).bind ?_
  rintro ⟨head, body⟩ y ⟨z, hhead, hname_lt, hbody, hlt⟩
  have hvalue : Reads i.met (n + 1) x.next.next [.function (i.met x.index).comments head body] y :=
    .function (hhead.later hname_lt) hbody
  exact .pure ⟨hlt, Reads.cons .declaration (.before (Nat.le_succ _) (.assignment rfl hname hvalue))⟩

theorem declarator_leads (h : i.Traced n inner) (word : DeclarationWord) (leading : List Comment)
    (x : Stage) :
    i.Leads x (declarator inner word leading) fun ns y =>
      x.index < y.index ∧ Reads i.met (n + 1) x ns y := by
  refine .expect fun hname => ?_
  have hkind : (i.met x.index).kind = .name := by simpa [TokenPattern.accepts] using hname
  have hdeclared {k : Nat} (hk : x.index ≤ k) : Reads i.met (n + 1) x
      [.declaration (leading ++ (i.met x.index).comments) word (i.met x.index)] (x.move k) :=
    Reads.declaration.behind hk
  refine .advance (Token.isEof_of_kind hkind (by decide)) (.ite (fun hequals => ?_) fun _ => ?_)
  · have hoperator : (i.met (x.index + 1)).kind = .operator := by
      simp only [Token.isOperator, Bool.and_eq_true, beq_iff_eq] at hequals
      exact hequals.1
    refine .advance (Token.isEof_of_kind hoperator (by decide)) ?_
    refine (h.expression _).bind fun value y hvalue => .pure ?_
    have hlt : x.index + 1 + 1 < y.index := hvalue.1
    have hassigned : Reads i.met n x.next [value] y := .before (Nat.le_succ _) hvalue.2
    exact ⟨by omega, (hdeclared (Nat.le_refl _)).cons (.assignment rfl hkind hassigned)⟩
  · exact .pure ⟨Nat.lt_succ_self _, hdeclared (Nat.le_succ _)⟩

theorem declarations_leads (h : i.Traced n inner) (heof : (i.met x.index).isEof = false) :
    i.Leads x (declarations inner) fun ns y =>
      x.index < y.index ∧ Reads i.met (n + 1) x ns y := by
  have hmore (word : DeclarationWord) : i.Repeats (afterComma (declarator inner word []))
      fun x nss y => Reads i.met (n + 1) x nss.flatten y :=
    afterComma_repeats (declarator_leads h word []) (fun _ => .nil)
      fun _ _ _ _ _ hns hnss => .append hns hnss
  refine .token (.advance heof ((declarator_leads h _ _ _).bind fun first y hfirst => ?_))
  refine ((hmore _).many y).bind fun more z hmore => terminator_leads.bind ?_
  rintro _ _ ⟨k, hk, rfl⟩
  have hlt : x.index + 1 < y.index := hfirst.1
  have hle := hmore.index_le
  refine .pure ⟨?_, .before (Nat.le_succ _) ((Reads.append hfirst.2 hmore).behind hk)⟩
  show x.index < k
  omega

/-- The last value is returned, and those before it are statements. -/
theorem returned_repeats (h : i.Traced n inner) :
    i.Repeats (afterComma inner.expression) fun x more y =>
      ∀ comments w value, Reads i.met n w [value] x →
        Reads i.met (n + 1) w (returned comments value more) y := by
  refine afterComma_repeats h.expression (fun x comments w value hvalue => .returnValue hvalue) ?_
  intro x y z next more hnext hmore comments w value hvalue
  refine Reads.cons ?_ (hmore [] x next hnext)
  split
  · exact hvalue.deeper (Nat.le_succ n)
  · exact .recommented comments (hvalue.deeper (Nat.le_succ n))

theorem returns_leads (h : i.Traced n inner) (heof : (i.met x.index).isEof = false) :
    i.Leads x (returns inner) fun ns y => x.index < y.index ∧ Reads i.met (n + 1) x ns y := by
  refine .token (.advance heof (.ite (fun _ => ?_) fun _ => ?_))
  · refine terminator_leads.bind ?_
    rintro _ _ ⟨k, hk, rfl⟩
    exact .pure ⟨hk, Reads.behind .returnNothing (Nat.le_of_succ_le hk)⟩
  · refine (h.expression _).bind fun first y hfirst => ?_
    refine ((returned_repeats h).many y).bind fun more z hmore => terminator_leads.bind ?_
    rintro _ _ ⟨k, hk, rfl⟩
    have hreturned := hmore (i.met x.index).comments x.next first hfirst.2
    have hlt : x.index + 1 < y.index := hfirst.1
    have hle : x.index + 1 ≤ z.index := hreturned.index_le
    refine .pure ⟨?_, .before (Nat.le_succ _) (hreturned.behind hk)⟩
    show x.index < k
    omega

theorem read_leads (h : i.Traced n inner) :
    i.Leads x (read inner) fun ns y => x.index < y.index ∧ Reads i.met (n + 2) x ns y := by
  have hdeeper {l : Nat} (hl : l ≤ n + 2) {m : Reader (List Node)}
      (hm : i.Leads x m fun ns y => x.index < y.index ∧ Reads i.met l x ns y) :
      i.Leads x m fun ns y => x.index < y.index ∧ Reads i.met (n + 2) x ns y :=
    hm.mono fun ns y hns => ⟨hns.1, hns.2.deeper hl⟩
  have hconstruct (hword : (i.met x.index).kind = .name ∨ (i.met x.index).kind = .keyword) :
      i.Leads x (do return [← Construct.node inner]) fun ns y =>
        x.index < y.index ∧ Reads i.met (n + 2) x ns y :=
    (Construct.node_leads h hword).bind fun node y hnode =>
      .pure ⟨hnode.1, hnode.2.deeper (by omega)⟩
  refine .token (Construct.isLabel_leads fun labelled hlabelled => ?_)
  cases hkind : (i.met x.index).kind with
  | keyword =>
    have heof := Token.isEof_of_kind hkind (by decide)
    refine .ite (fun _ => functionDeclaration_leads h heof) fun _ => .ite (fun _ => ?_) fun _ => ?_
    · exact hdeeper (by omega) (declarations_leads h heof)
    refine .ite (fun _ => hdeeper (by omega) (returns_leads h heof)) fun _ => .ite (fun _ => ?_)
      fun _ => .ite (fun _ => hconstruct (.inr hkind)) fun _ => .throw
    refine .advance heof (terminator_leads.bind ?_)
    rintro _ _ ⟨k, hk, rfl⟩
    exact .pure ⟨hk, Reads.nil.behind (Nat.le_of_succ_le hk)⟩
  | punctuation =>
    have heof := Token.isEof_of_kind hkind (by decide)
    refine .ite (fun _ => ?_) fun _ => .ite (fun _ => ?_) fun _ =>
      .ite (fun _ => hdeeper (by omega) (expressions_leads h)) fun _ => .throw
    · refine (Expression.braces_leads h).bind fun body y hbody => .pure ⟨hbody.1, ?_⟩
      exact (Reads.block hbody.2).deeper (Nat.le_succ _)
    · exact .advance heof (.pure ⟨Nat.lt_succ_self _, Reads.nil.behind (Nat.le_succ _)⟩)
  | name =>
    refine .ite (fun _ => hconstruct (.inl hkind)) fun _ => ?_
    exact hdeeper (by omega) (expressions_leads h)
  | atom | string | number | regexp | operator => exact hdeeper (by omega) (expressions_leads h)
  | eof => exact .throw

end Statement

namespace Input

variable {i : Input}

theorem traced_around {n : Nat} {inner : Readers} (h : i.Traced n inner) :
    i.Traced (n + 2) (.around inner) :=
  ⟨fun _ => (Statement.read_leads h).nested, fun _ => (Expression.read_leads h).nested,
    fun _ => (Expression.value_leads h).nested,
    fun _ hword => Leads.nested (Construct.read_leads h hword)⟩

theorem traced_within (i : Input) (n : Nat) : i.Traced (2 * n) (.within n) := by
  induction n with
  | zero => exact ⟨fun _ => .tooDeep, fun _ => .tooDeep, fun _ => .tooDeep, fun _ _ => .tooDeep⟩
  | succ n ih => exact traced_around ih

/-- A script that was read comes of a derivation, and its last token is the first end of the
input. -/
theorem script_leads (i : Input) (x : Stage) :
    i.Leads x Script.read fun body y =>
      Reads i.met (2 * nestingLimit) x body y ∧ (i.met y.index).isEof = true := by
  refine (Expression.block_leads (i.traced_within nestingLimit)).bind fun body y hbody => ?_
  exact .token (.ite (fun heof => .pure ⟨hbody, heof⟩) fun _ => .throw)

theorem here_ofFeed (i : Input) : i.Here {} (.ofFeed i.feed) :=
  ⟨⟨⟨.fresh, fun h => absurd rfl h⟩, Semicolons.inside_zero _⟩, rfl, rfl⟩

end Input

namespace TokenFeed

theorem ending_ofText [IdentifierTable] (text : String) : (ofText text).Ending (ofText text).raw :=
  fun i hg hi => ⟨i, Nat.le_refl i, isEof_raw hg hi⟩

theorem item_of_size_le {f : TokenFeed} {i : Nat} (h : f.size ≤ i) : f.item i = f.final := by
  rw [f.size_eq] at h
  rw [item, List.getD_eq_getElem?_getD, List.getElem?_eq_none h]
  rfl

theorem ending_ofTokens (tokens : List Token) : (ofTokens tokens).Ending (ofTokens tokens).raw := by
  intro i hg hi
  have hitem := hg i (Nat.le_refl i)
  rw [item_of_size_le hi, final_ofTokens] at hitem
  refine ⟨i, Nat.le_refl i, ?_⟩
  rw [← Except.ok.inj hitem]
  rfl

end TokenFeed

/-- A source of which every token is the same as in itself, and none ends the input. -/
def Pairing.endless : Pairing :=
  .whole (fun s t => s = t ∧ s.isEof = false) (fun _ _ => True) fun h => congrArg Token.signs h.1

theorem Pairing.endless_feeds {f : TokenFeed} {i : Nat} (hg : f.Given f.raw i) (hi : f.size ≤ i)
    (hnone : ∀ j, j ≤ i → (f.raw j).isEof = false) : endless.Feeds [] f f := by
  have hitem : ∀ j, endless.item (f.item j) (f.item j) := by
    intro j
    by_cases hj : j ≤ i
    · rw [hg j hj]
      exact ⟨rfl, hnone j hj⟩
    · have hlast := hg i (Nat.le_refl i)
      rw [TokenFeed.item_of_size_le hi] at hlast
      rw [TokenFeed.item_of_size_le (by omega), hlast]
      exact ⟨rfl, hnone i (Nat.le_refl i)⟩
  refine ⟨⟨f.items, (List.append_nil _).symm, ?_⟩, .inl ⟨rfl, ?_⟩⟩
  · rw [List.forall₂_iff_get]
    refine ⟨rfl, fun j hj _ => ?_⟩
    have hget := hitem j
    rw [TokenFeed.item, List.getD_eq_getElem?_getD, List.getElem?_eq_getElem hj] at hget
    exact hget
  · have hfinal := hitem f.size
    rwa [TokenFeed.item_of_size_le (Nat.le_refl _)] at hfinal

namespace Script

/-- A script ends with an end of the input, so its source has one. -/
theorem ending_of_read {f : TokenFeed} {body : List Node} {r : Reading}
    (h : read (.ofFeed f) = .ok body r) : f.Ending f.raw := by
  intro i hg hi
  by_contra hnever
  have hnone : ∀ j, j ≤ i → (f.raw j).isEof = false := by
    intro j hj
    rw [← Bool.not_eq_true]
    exact fun he => hnever ⟨j, hj, he⟩
  have hfeeds := Pairing.endless_feeds hg hi hnone
  obtain ⟨ns, r₁, hblock, hrest⟩ := bind_eq_ok.1 h
  obtain ⟨t, r₂, htoken, hend⟩ := bind_eq_ok.1 hrest
  have habreast := Expression.block_keeps (Pairing.endless.paired_within [] nestingLimit)
    _ _ (Pairing.readings_ofFeed hfeeds)
  rw [hblock] at habreast
  rcases habreast with ⟨ms, r₁', -, -, habreast⟩ | hover
  · have hmet := Reader.token_keeps r₁' r₁ habreast
    rw [htoken] at hmet
    rcases hmet with ⟨t', r₂', -, hmet, -⟩ | hover
    · have heof : t.isEof = false := by
        cases hmet with
        | token hraw =>
          obtain ⟨rfl, heof⟩ := hraw
          exact heof
        | semicolon _ => rfl
      rw [heof, if_neg Bool.false_ne_true] at hend
      cases hend
    · exact hover.exists_stop.elim fun _ hstop => hstop.elim
  · exact hover.exists_stop.elim fun _ hstop => hstop.elim

/-- A script of which something is found out was read. -/
theorem exists_of_any {o : Except ReadError Script} {p : Script → Bool}
    (h : o.toOption.any p = true) : ∃ s, o = .ok s ∧ p s = true := by
  cases o with
  | error e => cases h
  | ok s => exact ⟨s, rfl, h⟩

/-- A script that is read to its end is derived from its tokens, and what was counted on the
way is counted at the end. -/
theorem derivation_of_read {feed : TokenFeed} {body : List Node} {r : Reading}
    (h : read (.ofFeed feed) = .ok body r) :
    ∃ x, Reads (Semicolons.corrected feed.raw) (2 * nestingLimit) {} body x ∧
      r.anonymous = x.anonymous ∧ r.warnings = x.warnings ∧
      TokenStream.Arrived feed feed.raw x.index r.stream := by
  let i : Input := ⟨feed, feed.raw, feed.offers_raw, ending_of_read h⟩
  have hleads := i.script_leads {} _ i.here_ofFeed
  rw [h] at hleads
  obtain ⟨x, hx, hreads, -⟩ := hleads
  exact ⟨x, hreads, hx.anonymous, hx.warnings, hx.arrived⟩

theorem exists_read {feed : TokenFeed} {s : Script} (h : ofFeed feed = .ok s) :
    ∃ r, read (.ofFeed feed) = .ok s.body r ∧ r.warnings = s.warnings := by
  unfold ofFeed at h
  cases hrun : read (.ofFeed feed) with
  | error e r =>
    rw [hrun] at h
    cases h
  | ok body r =>
    rw [hrun] at h
    cases h
    exact ⟨r, rfl, rfl⟩

/-- What a script is made of, wherever its tokens come from. -/
theorem derivation {feed : TokenFeed} {s : Script} (h : ofFeed feed = .ok s) :
    ∃ x t, Reads (Semicolons.corrected feed.raw) (2 * nestingLimit) {} s.body x ∧
      x.warnings = s.warnings ∧ TokenStream.Arrived feed feed.raw x.index t := by
  obtain ⟨r, hread, hwarnings⟩ := exists_read h
  obtain ⟨x, hreads, -, hsame, harrived⟩ := derivation_of_read hread
  exact ⟨x, r.stream, hreads, by rw [← hsame, hwarnings], harrived⟩

end Script

end ScriptOutline
