/-
Reading a group and writing out its tokens are inverse to each other.

Reading trees is passing their tokens, and where the tokens of a well-formed group are coming,
that group is read.  A group that is nested too deep is the one case in which well-formed tokens
are refused, and `LeavesOpen` says which tokens lead there.

Both directions go by the rounds of a repetition, `Repeat.Through`: the rounds of a list are its
trees, so what comes behind them is what the repetition goes on with.
-/
import ScriptOutline.Proofs.Passing

namespace ScriptOutline

namespace Repeat

variable {ε σ α β : Type} {size : σ → Nat} {step : β → EStateM ε σ (Option (α × β))}

def prepend (as : List α) : EStateM.Result ε σ (List α) → EStateM.Result ε σ (List α)
  | .ok bs s => .ok (as ++ bs) s
  | .error e s => .error e s

/-- Rounds from which a repetition goes on, with what they collect. -/
inductive Through (size : σ → Nat) (step : β → EStateM ε σ (Option (α × β))) :
    β → σ → List α → β → σ → Prop where
  | nil {b : β} {s : σ} : Through size step b s [] b s
  | cons {b b' c : β} {s s₁ t : σ} {a : α} {as : List α}
    (round : step b s = .ok (some (a, b')) s₁) (less : size s₁ < size s)
    (rest : Through size step b' s₁ as c t) : Through size step b s (a :: as) c t

theorem Through.collect {b c : β} {s t : σ} {as : List α} (h : Through size step b s as c t) :
    Repeat.collect size step b s = prepend as (Repeat.collect size step c t) := by
  induction h with
  | @nil b s => cases Repeat.collect size step b s <;> rfl
  | @cons b b' c s s₁ t a as round less rest ih =>
    rw [Repeat.collect, round]
    simp only [less, if_true, ih]
    cases Repeat.collect size step c t <;> rfl

/-- A repetition fails in the round behind some rounds that succeed. -/
theorem exists_through_of_error {b : β} {s s' : σ} {e : ε}
    (h : Repeat.collect size step b s = .error e s') :
    ∃ as c t, Through size step b s as c t ∧ step c t = .error e s' := by
  fun_induction Repeat.collect size step b s with
  | case1 b s e₁ s₁ hstep =>
    cases h
    exact ⟨[], b, s, .nil, hstep⟩
  | case2 b s s₁ hstep => cases h
  | case3 b s a b' s₁ hstep hless as s₂ hrest ih => cases h
  | case4 b s a b' s₁ hstep hless e₁ s₂ hrest ih =>
    cases h
    obtain ⟨as, c, t, hthrough, hlast⟩ := ih hrest
    exact ⟨a :: as, c, t, .cons hstep hless hthrough, hlast⟩
  | case5 b s a b' s₁ hstep hless => cases h

end Repeat

namespace TokenTree

/-- A token that opens nothing and does not end a list that goes up to `p`. -/
def StandsBefore (p : TokenPattern) : TokenTree → Prop
  | leaf t => t.isOpening = false ∧ t.isEof = false ∧ p.accepts t = false
  | group .. => False

mutual
/-- A group whose brackets match, around trees that stand before its closing bracket. -/
def IsGroup : TokenTree → Prop
  | leaf _ => False
  | group opener trees closer =>
    opener.isOpening = true ∧ closer.isPunctuation (closingOf opener.value) = true ∧
      WellFormed (.punctuation (closingOf opener.value)) trees

/-- Trees that may stand before a token that fits `p`. -/
def WellFormed (p : TokenPattern) : List TokenTree → Prop
  | [] => True
  | tree :: trees => (StandsBefore p tree ∨ IsGroup tree) ∧ WellFormed p trees
end

/-- Trees before the first token outside brackets that fits `p`, at most `depth` deep. -/
structure UpTo (p : TokenPattern) (depth : Nat) (trees : List TokenTree) : Prop where
  wellFormed : WellFormed p trees
  unmatched : ∀ tree ∈ trees, p.accepts tree.first = false
  depth_le : depthOf trees ≤ depth

/-- Tokens that open `depth` groups inside each other and close none of them.  What stands
between these brackets needs no more groups at once than are left. -/
inductive LeavesOpen : Nat → List Token → Prop where
  | none : LeavesOpen 0 []
  | one {depth : Nat} {opener : Token} {trees : List TokenTree} {ts : List Token}
    (opens : opener.isOpening = true)
    (wellFormed : WellFormed (.punctuation (closingOf opener.value)) trees)
    (depth_le : depthOf trees ≤ depth) (rest : LeavesOpen depth ts) :
    LeavesOpen (depth + 1) (opener :: (tokensOf trees ++ ts))

variable {p : TokenPattern} {depth : Nat} {tree : TokenTree} {trees : List TokenTree}

theorem upTo_nil (p : TokenPattern) (depth : Nat) : UpTo p depth [] :=
  ⟨trivial, by simp, Nat.zero_le _⟩

theorem upTo_cons :
    UpTo p depth (tree :: trees) ↔
      (StandsBefore p tree ∨ IsGroup tree) ∧ p.accepts tree.first = false ∧ tree.depth ≤ depth ∧
        UpTo p depth trees := by
  constructor
  · rintro ⟨⟨htree, htrees⟩, hfirst, hdepth⟩
    obtain ⟨hfirst, hfirsts⟩ := List.forall_mem_cons.1 hfirst
    obtain ⟨hdepth, hdepths⟩ := Nat.max_le.1 hdepth
    exact ⟨htree, hfirst, hdepth, htrees, hfirsts, hdepths⟩
  · rintro ⟨htree, hfirst, hdepth, htrees⟩
    exact ⟨⟨htree, htrees.wellFormed⟩, List.forall_mem_cons.2 ⟨hfirst, htrees.unmatched⟩,
      Nat.max_le.2 ⟨hdepth, htrees.depth_le⟩⟩

theorem tokens_eq_cons (tree : TokenTree) : ∃ ts, tree.tokens = tree.first :: ts := by
  cases tree with
  | leaf t => exact ⟨[], rfl⟩
  | group opener trees closer => exact ⟨tokensOf trees ++ [closer], rfl⟩

theorem isOpening_first (h : tree.IsGroup) : tree.first.isOpening = true := by
  cases tree with
  | leaf t => exact h.elim
  | group opener trees closer => exact h.1

theorem not_accepts_of_isOpening {opener t : Token} (h : t.isOpening = true) :
    (TokenPattern.punctuation (closingOf opener.value)).accepts t = false := by
  have hvalue : closingOf opener.value ∈ [")", "]", "\x7d"] := by
    unfold closingOf
    split
    · decide
    · split <;> decide
  have hne : ∀ v ∈ [")", "]", "\x7d"], v ≠ "(" ∧ v ≠ "[" ∧ v ≠ "\x7b" := by decide
  obtain ⟨hround, hsquare, hcurly⟩ := hne _ hvalue
  simp only [Token.isOpening, Token.isPunctuation, Bool.or_eq_true, Bool.and_eq_true,
    beq_iff_eq] at h
  simp only [TokenPattern.punctuation, TokenPattern.accepts, Bool.and_eq_false_iff,
    beq_eq_false_iff_ne]
  refine .inr ?_
  rcases h with (⟨-, hv⟩ | ⟨-, hv⟩) | ⟨-, hv⟩
  · rw [hv]
    exact hround.symm
  · rw [hv]
    exact hsquare.symm
  · rw [hv]
    exact hcurly.symm

/-- Well-formed trees stand before the first closing bracket of their own. -/
theorem upTo_of_wellFormed {opener : Token}
    (h : WellFormed (.punctuation (closingOf opener.value)) trees) (hd : depthOf trees ≤ depth) :
    UpTo (.punctuation (closingOf opener.value)) depth trees := by
  refine ⟨h, ?_, hd⟩
  clear hd
  induction trees with
  | nil => simp
  | cons tree trees ih =>
    obtain ⟨htree, htrees⟩ := h
    refine List.forall_mem_cons.2 ⟨?_, ih htrees⟩
    rcases htree with hleaf | hgroup
    · cases tree with
      | leaf t => exact hleaf.2.2
      | group => exact hleaf.elim
    · exact not_accepts_of_isOpening (isOpening_first hgroup)

mutual
theorem isEof_of_isGroup : ∀ (tree : TokenTree), tree.IsGroup → ∀ t ∈ tree.tokens, t.isEof = false
  | .leaf _, h => h.elim
  | .group opener inner closer, ⟨hopen, hclose, hinner⟩ => by
    intro t ht
    rw [tokens, List.mem_cons, List.mem_append, List.mem_singleton] at ht
    rcases ht with rfl | ht | rfl
    · exact TokenStream.isEof_of_isOpening hopen
    · exact isEof_of_wellFormed inner hinner t ht
    · exact TokenStream.isEof_of_accepts hclose

theorem isEof_of_wellFormed : ∀ (trees : List TokenTree) {p : TokenPattern}, WellFormed p trees →
    ∀ t ∈ tokensOf trees, t.isEof = false
  | [], _, _ => by simp [tokensOf]
  | tree :: trees, p, ⟨htree, htrees⟩ => by
    intro t ht
    rw [tokensOf, List.mem_append] at ht
    rcases ht with ht | ht
    · rcases htree with hleaf | hgroup
      · cases tree with
        | leaf u =>
          rw [tokens, List.mem_singleton] at ht
          rw [ht]
          exact hleaf.2.1
        | group => exact hleaf.elim
      · exact isEof_of_isGroup tree hgroup t ht
    · exact isEof_of_wellFormed trees htrees t ht
end

end TokenTree

/-! ## Reading is passing -/

namespace TokenStream

open TokenTree

variable {s s' s₁ s₂ : TokenStream} {t u : Token} {ts : List Token} {p : TokenPattern}
  {depth b b' : Nat} {tree : TokenTree} {trees : List TokenTree} {group : Streaming TokenTree}

def stops (p : TokenPattern) : Nat → Token → Bool := fun _ t => p.accepts t || t.isEof

/-- What the reader gives is a group, and it passes its tokens. -/
def PassesGroups (depth : Nat) (group : Streaming TokenTree) : Prop :=
  ∀ {s s' tree}, group s = .ok tree s' →
    tree.IsGroup ∧ tree.depth ≤ depth ∧ Passes s tree.tokens s'

theorem gatherStep_some {ends : Nat → Token → Bool} (hs : Shows u s)
    (h : gatherStep group ends b s = .ok (some (tree, b')) s') :
    ends b u = false ∧ ((u.isOpening = true ∧ group s = .ok tree s') ∨
      (u.isOpening = false ∧ tree = .leaf u ∧ ∃ v, advance s = .ok v s')) := by
  rw [gatherStep, bind_run_ok (token_of_shows hs)] at h
  split at h
  · cases h
  rename_i hend
  rw [Bool.not_eq_true] at hend
  refine ⟨hend, ?_⟩
  split at h
  · rename_i hopen
    obtain ⟨tree', s₁, hgroup, h⟩ := bind_eq_ok.1 h
    cases h
    exact .inl ⟨hopen, hgroup⟩
  · rename_i hopen
    rw [Bool.not_eq_true] at hopen
    obtain ⟨v, s₁, hadvance, h⟩ := bind_eq_ok.1 h
    cases h
    exact .inr ⟨hopen, rfl, v, hadvance⟩

theorem step_upTo (hgroup : PassesGroups depth group) (hs : Begun s)
    (h : gatherStep group (stops p) b s = .ok (some (tree, b')) s') :
    Begun s' ∧ Passes s tree.tokens s' ∧ (StandsBefore p tree ∨ IsGroup tree) ∧
      p.accepts tree.first = false ∧ tree.depth ≤ depth := by
  obtain ⟨u, hu⟩ := hs
  obtain ⟨hend, hcases⟩ := gatherStep_some hu h
  simp only [stops, Bool.or_eq_false_iff] at hend
  rcases hcases with ⟨-, hrun⟩ | ⟨hopen, rfl, v, hadvance⟩
  · obtain ⟨htree, hdepth, hpasses⟩ := hgroup hrun
    obtain ⟨ts, hts⟩ := tokens_eq_cons tree
    have hlooked := hpasses
    rw [hts] at hlooked
    have hfirst : tree.first = u := (hlooked.looked (token_of_shows hu)).1.symm
    exact ⟨hpasses.begun ⟨u, hu⟩, hpasses, .inr htree, by rw [hfirst]; exact hend.1, hdepth⟩
  · exact ⟨⟨v, advance_shows hadvance⟩, .cons (token_of_shows hu) hadvance .nil,
      .inl ⟨hopen, hend.2, hend.1⟩, hend.1, Nat.zero_le _⟩

theorem collected_upTo (hgroup : PassesGroups depth group) (hs : Begun s)
    (h : Repeat.Collected remaining (gatherStep group (stops p)) b s trees s') :
    Passes s (tokensOf trees) s' ∧ UpTo p depth trees := by
  induction h with
  | @done b s s' last =>
    obtain ⟨u, hu⟩ := hs
    rw [gatherStep, bind_run_ok (token_of_shows hu)] at last
    split at last
    · cases last
      exact ⟨.nil, upTo_nil p depth⟩
    · split at last
      · obtain ⟨_, _, _, last⟩ := bind_eq_ok.1 last
        cases last
      · obtain ⟨_, _, _, last⟩ := bind_eq_ok.1 last
        cases last
  | more first _ _ ih =>
    obtain ⟨hs₁, hpasses, htree, hfirst, hdepth⟩ := step_upTo hgroup hs first
    obtain ⟨hrest, htrees⟩ := ih hs₁
    exact ⟨hpasses.append hrest, upTo_cons.2 ⟨htree, hfirst, hdepth, htrees⟩⟩
  | stuck first _ =>
    obtain ⟨-, hpasses, htree, hfirst, hdepth⟩ := step_upTo hgroup hs first
    exact ⟨hpasses.append .nil, upTo_cons.2 ⟨htree, hfirst, hdepth, upTo_nil p depth⟩⟩

theorem through_upTo (hgroup : PassesGroups depth group) (hs : Begun s)
    (h : Repeat.Through remaining (gatherStep group (stops p)) b s trees b' s') :
    Passes s (tokensOf trees) s' ∧ UpTo p depth trees := by
  induction h with
  | nil => exact ⟨.nil, upTo_nil p depth⟩
  | cons round _ _ ih =>
    obtain ⟨hs₁, hpasses, htree, hfirst, hdepth⟩ := step_upTo hgroup hs round
    obtain ⟨hrest, htrees⟩ := ih hs₁
    exact ⟨hpasses.append hrest, upTo_cons.2 ⟨htree, hfirst, hdepth, htrees⟩⟩

theorem treesUntil_passes (hgroup : PassesGroups depth group)
    (h : treesUntil group p s = .ok trees s') :
    ∃ first last, Passes s (first :: tokensOf trees) s' ∧ UpTo p depth trees ∧ Shows last s' ∧
      p.accepts last = true := by
  obtain ⟨u, s₁, hadvance, h⟩ := bind_eq_ok.1 h
  obtain ⟨first, hfirst⟩ := passes_of_advance hadvance
  obtain ⟨trees', s₂, hgather, h⟩ := bind_eq_ok.1 h
  have hs₁ : Begun s₁ := ⟨u, advance_shows hadvance⟩
  obtain ⟨hpasses, htrees⟩ := collected_upTo hgroup hs₁ (Repeat.collected_of_collect hgather)
  obtain ⟨last, hlast⟩ := hpasses.begun hs₁
  rw [bind_run_ok (token_of_shows hlast)] at h
  split at h
  · rename_i haccepts
    cases h
    exact ⟨first, last, hfirst.append hpasses, htrees, hlast, haccepts⟩
  · cases h

/-- A group that was read is one, and its tokens have been passed. -/
theorem groupWithin_passes (depth : Nat) : PassesGroups depth (groupWithin depth) := by
  induction depth with
  | zero =>
    intro s s' tree h
    obtain ⟨_, _, _, h⟩ := bind_eq_ok.1 h
    cases h
  | succ depth ih =>
    intro s s' tree h
    obtain ⟨opener, s₁, hopener, h⟩ := bind_eq_ok.1 h
    obtain ⟨htoken, hopen⟩ := expect_opening hopener
    obtain ⟨trees, s₂, huntil, h⟩ := bind_eq_ok.1 h
    obtain ⟨first, last, hpasses, htrees, hlast, haccepts⟩ := treesUntil_passes ih huntil
    obtain ⟨rfl, -, -⟩ := hpasses.looked (token_of_shows (token_shows htoken))
    rw [bind_run_ok (token_of_shows hlast)] at h
    obtain ⟨v, s₃, hadvance, h⟩ := bind_eq_ok.1 h
    cases h
    refine ⟨⟨hopen, haccepts, htrees.wellFormed⟩, Nat.succ_le_succ htrees.depth_le, ?_⟩
    exact (hpasses.unlooked htoken).append (.cons (token_of_shows hlast) hadvance .nil)

/-- The reader gives every group whose tokens are coming. -/
def ReadsGroups (depth : Nat) (group : Streaming TokenTree) : Prop :=
  ∀ {s s' tree}, s.feed.Ends → tree.IsGroup → tree.depth ≤ depth → Passes s tree.tokens s' →
    group s = .ok tree s'

theorem through_of_passes (hgroup : ReadsGroups depth group) (hf : s.feed.Ends) (hs : Begun s)
    (htrees : UpTo p depth trees) (h : Passes s (tokensOf trees) s') :
    ∃ b', Repeat.Through remaining (gatherStep group (stops p)) b s trees b' s' := by
  induction trees generalizing b s with
  | nil =>
    cases h
    exact ⟨b, .nil⟩
  | cons tree trees ih =>
    obtain ⟨s₁, htree, hrest⟩ := Passes.split h
    obtain ⟨hform, hfirst, hdepth, hup⟩ := upTo_cons.1 htrees
    have he : ∀ t ∈ tree.tokens, t.isEof = false := fun t ht =>
      isEof_of_wellFormed (tree :: trees) htrees.wellFormed t (List.mem_append_left _ ht)
    have hends := (htree.remaining_le hf hs he).2
    obtain ⟨ts, hts⟩ := tokens_eq_cons tree
    rw [hts] at he
    have hlooked := htree
    rw [hts] at hlooked
    have hlt := hlooked.remaining_lt hf hs he
    obtain ⟨u, hu⟩ := hs
    obtain ⟨rfl, -, -⟩ := hlooked.looked (token_of_shows hu)
    obtain ⟨c, hstep⟩ : ∃ c, gatherStep group (stops p) b s = .ok (some (tree, c)) s₁ := by
      have hend : stops p b tree.first = false := by
        simp only [stops, hfirst, he tree.first List.mem_cons_self, Bool.or_false]
      rw [gatherStep, bind_run_ok (token_of_shows hu), hend]
      rcases hform with hleaf | hisGroup
      · cases tree with
        | leaf t =>
          cases htree with
          | cons current next rest =>
            rw [token_of_shows hu] at current
            cases current
            cases rest
            refine ⟨conditionalsAfter b t, ?_⟩
            have hopen : Token.isOpening (TokenTree.first (.leaf t)) = false := hleaf.1
            rw [hopen]
            exact bind_run_ok next _
        | group => exact hleaf.elim
      · refine ⟨b, ?_⟩
        rw [isOpening_first hisGroup]
        exact bind_run_ok (hgroup hf hisGroup hdepth htree) _
    obtain ⟨b', hthrough⟩ := ih hends (htree.begun ⟨_, hu⟩) hup hrest
    exact ⟨b', .cons hstep hlt hthrough⟩

theorem treesUntil_of_passes {first last : Token} (hgroup : ReadsGroups depth group)
    (hf : s.feed.Ends) (htrees : UpTo p depth trees) (h : Passes s (first :: tokensOf trees) s')
    (hlast : Shows last s') (haccepts : p.accepts last = true) :
    treesUntil group p s = .ok trees s' := by
  cases h with
  | @cons _ s₁ s₂ _ _ u _ current next rest =>
    have hs₂ : Shows u s₂ := advance_shows next
    have hends := ends_of_advance (ends_of_token hf current) (token_shows current) next
    obtain ⟨b', hthrough⟩ := through_of_passes hgroup hends ⟨u, hs₂⟩ htrees rest
    have hgather : gather group (stops p) s₂ = .ok trees s' := by
      refine hthrough.collect.trans ?_
      rw [Repeat.collect, gatherStep, bind_run_ok (token_of_shows hlast)]
      simp only [stops, haccepts, Bool.true_or, if_true, pure_run, Repeat.prepend, List.append_nil]
    rw [← advance_looked current] at next
    rw [treesUntil, bind_run_ok next]
    refine (bind_run_ok hgather _).trans ?_
    rw [bind_run_ok (token_of_shows hlast), if_pos haccepts]
    rfl

theorem groupWithin_reads (depth : Nat) : ReadsGroups depth (groupWithin depth) := by
  induction depth with
  | zero =>
    intro s s' tree _ htree hdepth _
    cases tree with
    | leaf t => exact htree.elim
    | group opener trees closer => exact absurd hdepth (Nat.not_succ_le_zero _)
  | succ depth ih =>
    intro s s' tree hf htree hdepth h
    cases tree with
    | leaf t => exact htree.elim
    | group opener trees closer =>
      obtain ⟨hopen, hclose, hwf⟩ := htree
      have htrees := upTo_of_wellFormed hwf (Nat.le_of_succ_le_succ hdepth)
      obtain ⟨s₁, hinner, hlast⟩ := Passes.split
        (show Passes s ((opener :: tokensOf trees) ++ [closer]) s' from h)
      obtain ⟨v, hv⟩ := hinner.begun_cons
      obtain ⟨rfl, -, -⟩ := hlast.looked (token_of_shows hv)
      cases hinner with
      | @cons _ s₀ _ _ _ _ _ current next rest =>
        have hagain : Passes s₀ (opener :: tokensOf trees) s₁ :=
          .cons (token_of_shows (token_shows current)) next rest
        have huntil := treesUntil_of_passes ih (ends_of_token hf current) htrees hagain hv hclose
        cases hlast with
        | cons current' next' rest' =>
          cases rest'
          rw [token_of_shows hv] at current'
          cases current'
          rw [groupWithin, bind_run_ok (expect_of_isOpening current hopen), bind_run_ok huntil,
            bind_run_ok (token_of_shows hv), bind_run_ok next']
          rfl

/-! ## Too many brackets -/

/-- Behind tokens that leave `depth` groups open there comes one more opening bracket. -/
structure Sinks (depth : Nat) (s : TokenStream) (ts : List Token) (o : Token) (s' : TokenStream) :
    Prop where
  leavesOpen : LeavesOpen depth ts
  opens : o.isOpening = true
  passes : ∃ s₁, Passes s ts s₁ ∧ token s₁ = .ok o s'

/-- The reader refuses a group at the bracket that is one too many, and at no other. -/
def RefusesAt (depth : Nat) (group : Streaming TokenTree) : Prop :=
  ∀ {s s' e}, s.feed.Ends →
    (group s = .error e s' ∧ e.fault = .nestingTooDeep ↔
      ∃ ts o, Sinks depth s ts o s' ∧ e = .nestingTooDeep o)

/-- Trees up to `p` and an opening bracket behind them that is one too many. -/
structure SinksBehind (p : TokenPattern) (depth : Nat) (s : TokenStream) (first : Token)
    (trees : List TokenTree) (ts : List Token) (o : Token) (s' : TokenStream) : Prop where
  upTo : UpTo p depth trees
  leavesOpen : LeavesOpen depth ts
  opens : o.isOpening = true
  unmatched : ∀ t ∈ (ts ++ [o]).head?, p.accepts t = false
  passes : ∃ s₁, Passes s (first :: (tokensOf trees ++ ts)) s₁ ∧ token s₁ = .ok o s'

theorem isOpening_head {o v : Token} (hts : LeavesOpen depth ts) (ho : o.isOpening = true)
    (hv : v ∈ (ts ++ [o]).head?) : v.isOpening = true := by
  cases hts with
  | none =>
    cases hv
    exact ho
  | one opens =>
    cases hv
    exact opens

theorem shows_head {o : Token} (hs : Begun s) (h : Passes s ts s₁) (ho : token s₁ = .ok o s') :
    ∃ v ∈ (ts ++ [o]).head?, Shows v s := by
  obtain ⟨u, hu⟩ := hs
  cases ts with
  | nil =>
    cases h
    rw [token_of_shows hu] at ho
    cases ho
    exact ⟨o, rfl, hu⟩
  | cons t ts =>
    obtain ⟨rfl, -, -⟩ := h.looked (token_of_shows hu)
    exact ⟨u, rfl, hu⟩

theorem treesUntil_sinks {first o : Token} (hreads : ReadsGroups depth group)
    (hrefuses : RefusesAt depth group) (hf : s.feed.Ends)
    (h : SinksBehind p depth s first trees ts o s') :
    treesUntil group p s = .error (.nestingTooDeep o) s' := by
  obtain ⟨s₁, hpasses, ho⟩ := h.passes
  cases hpasses with
  | @cons _ s₀ s₂ _ _ u _ current next rest =>
    have hends := ends_of_advance (ends_of_token hf current) (token_shows current) next
    have hs₂ : Begun s₂ := ⟨u, advance_shows next⟩
    obtain ⟨s₃, htrees, hts⟩ := rest.split
    obtain ⟨b', hthrough⟩ := through_of_passes (b := 0) hreads hends hs₂ h.upTo htrees
    obtain ⟨v, hhead, hv⟩ := shows_head (htrees.begun hs₂) hts ho
    have hends₃ := (htrees.remaining_le hends hs₂ (isEof_of_wellFormed trees h.upTo.wellFormed)).2
    have hopen : v.isOpening = true := isOpening_head h.leavesOpen h.opens hhead
    have hrefused := ((hrefuses hends₃).2
      ⟨ts, o, ⟨h.leavesOpen, h.opens, s₁, hts, ho⟩, rfl⟩).1
    have hgather : gather group (stops p) s₂ = .error (.nestingTooDeep o) s' := by
      refine hthrough.collect.trans ?_
      have hround : gatherStep group (stops p) b' s₃ = .error (.nestingTooDeep o) s' := by
        rw [gatherStep, bind_run_ok (token_of_shows hv)]
        simp only [stops, h.unmatched v hhead, isEof_of_isOpening hopen, hopen, Bool.or_self,
          Bool.false_eq_true, if_false, if_true]
        rw [bind_run, hrefused]
      rw [Repeat.collect, hround]
      rfl
    rw [← advance_looked current] at next
    rw [treesUntil, bind_run_ok next]
    exact bind_eq_error.2 (.inl hgather)

theorem treesUntil_refused {e : ReadError} (hpasses : PassesGroups depth group)
    (hrefuses : RefusesAt depth group) (hf : s.feed.Ends)
    (h : treesUntil group p s = .error e s') (he : e.fault = .nestingTooDeep) :
    ∃ first trees ts o, SinksBehind p depth s first trees ts o s' ∧ e = .nestingTooDeep o := by
  rcases bind_eq_error.1 h with h | ⟨u, s₂, hadvance, h⟩
  · exact absurd he (lexical_of_advance h)
  obtain ⟨first, s₀, htoken, hnext⟩ := token_of_advance hadvance
  have hends := ends_of_advance (ends_of_token hf htoken) (token_shows htoken) hnext
  have hs₂ : Begun s₂ := ⟨u, advance_shows hadvance⟩
  rcases bind_eq_error.1 h with h | ⟨trees, s₃, hgather, h⟩
  · obtain ⟨trees, c, s₃, hthrough, hround⟩ := Repeat.exists_through_of_error h
    obtain ⟨htrees, hup⟩ := through_upTo hpasses hs₂ hthrough
    have hends₃ := (htrees.remaining_le hends hs₂ (isEof_of_wellFormed trees hup.wellFormed)).2
    obtain ⟨v, hv⟩ := htrees.begun hs₂
    have hround : gatherStep group (stops p) c s₃ = .error e s' := hround
    rw [gatherStep, bind_run_ok (token_of_shows hv)] at hround
    split at hround
    · cases hround
    rename_i hend
    simp only [stops, Bool.or_eq_true, not_or, Bool.not_eq_true] at hend
    split at hround
    · -- the group that begins here is refused
      rcases bind_eq_error.1 hround with hgroup | ⟨_, _, _, hround⟩
      · obtain ⟨ts, o, hsinks, rfl⟩ := (hrefuses hends₃).1 ⟨hgroup, he⟩
        obtain ⟨s₁, hts, ho⟩ := hsinks.passes
        obtain ⟨w, hhead, hw⟩ := shows_head ⟨v, hv⟩ hts ho
        have hsame : w = v := Option.some.inj (hw.symm.trans hv)
        refine ⟨first, trees, ts, o, ⟨hup, hsinks.leavesOpen, hsinks.opens, fun t ht => ?_, s₁,
          .cons htoken hnext (htrees.append hts), ho⟩, rfl⟩
        rw [Option.mem_unique ht hhead, hsame]
        exact hend.1
      · cases hround
    · rcases bind_eq_error.1 hround with hround | ⟨_, _, _, hround⟩
      · exact absurd he (lexical_of_advance hround)
      · cases hround
  · rcases bind_eq_error.1 h with h | ⟨t, s₄, _, h⟩
    · exact absurd he (lexical_of_token h)
    · split at h
      · cases h
      · cases h
        exact absurd he fun hfault => ReadFault.noConfusion hfault

theorem groupWithin_refuses (depth : Nat) : RefusesAt depth (groupWithin depth) := by
  induction depth with
  | zero =>
    intro s s' e hf
    constructor
    · rintro ⟨h, he⟩
      rcases bind_eq_error.1 h with h | ⟨o, s₁, ho, h⟩
      · exact absurd he (lexical_of_expect h)
      · cases h
        obtain ⟨htoken, hopen⟩ := expect_opening ho
        exact ⟨[], o, ⟨.none, hopen, s, .nil, htoken⟩, rfl⟩
    · rintro ⟨ts, o, ⟨hopen, ho, s₁, hpasses, htoken⟩, rfl⟩
      cases hopen
      cases hpasses
      refine ⟨?_, rfl⟩
      rw [groupWithin, bind_run_ok (expect_of_isOpening htoken ho)]
      rfl
  | succ depth ih =>
    intro s s' e hf
    constructor
    · rintro ⟨h, he⟩
      rcases bind_eq_error.1 h with h | ⟨opener, s₀, hopener, h⟩
      · exact absurd he (lexical_of_expect h)
      obtain ⟨htoken, hopen⟩ := expect_opening hopener
      rcases bind_eq_error.1 h with h | ⟨trees, s₁, huntil, h⟩
      · obtain ⟨first, trees, ts, o, hsinks, rfl⟩ :=
          treesUntil_refused (groupWithin_passes depth) ih (ends_of_token hf htoken) h he
        obtain ⟨s₁, hpasses, ho⟩ := hsinks.passes
        obtain ⟨rfl, -, -⟩ := hpasses.looked (token_of_shows (token_shows htoken))
        exact ⟨opener :: (tokensOf trees ++ ts), o,
          ⟨.one hopen hsinks.upTo.wellFormed hsinks.upTo.depth_le hsinks.leavesOpen, hsinks.opens,
            s₁, hpasses.unlooked htoken, ho⟩, rfl⟩
      · obtain ⟨first, last, hpasses, -, hlast, -⟩ :=
          treesUntil_passes (groupWithin_passes depth) huntil
        rw [bind_run_ok (token_of_shows hlast)] at h
        rcases bind_eq_error.1 h with h | ⟨_, _, _, h⟩
        · exact absurd he (lexical_of_advance h)
        · cases h
    · rintro ⟨_, o, ⟨hleaves, ho, s₁, hpasses, htoken⟩, rfl⟩
      refine ⟨?_, rfl⟩
      cases hleaves with
      | @one _ opener trees ts hopen hwf hdepth hrest =>
        cases hpasses with
        | @cons _ s₀ _ _ _ _ _ current next rest =>
          have huntil : treesUntil (groupWithin depth) (.punctuation (closingOf opener.value)) s₀ =
              .error (.nestingTooDeep o) s' := by
            refine treesUntil_sinks (groupWithin_reads depth) ih (ends_of_token hf current)
              ⟨upTo_of_wellFormed hwf hdepth, hrest, ho, fun t ht => ?_, s₁,
                .cons (token_of_shows (token_shows current)) next rest, htoken⟩
            exact not_accepts_of_isOpening (isOpening_head hrest ho ht)
          rw [groupWithin, bind_run_ok (expect_of_isOpening current hopen)]
          exact bind_eq_error.2 (.inl huntil)

theorem skipUntil_eq_ok {stay : Bool} :
    skipUntil p stay s = .ok trees s' ↔ ∃ s₁, treesUntil TokenStream.group p s = .ok trees s₁ ∧
      if stay then s' = s₁ else ∃ u, advance s₁ = .ok u s' := by
  rw [skipUntil, bind_eq_ok]
  cases stay with
  | true =>
    constructor
    · rintro ⟨trees', s₁, huntil, h⟩
      cases h
      exact ⟨s', huntil, rfl⟩
    · rintro ⟨s₁, huntil, rfl⟩
      exact ⟨trees, s', huntil, rfl⟩
  | false =>
    constructor
    · rintro ⟨trees', s₁, huntil, h⟩
      obtain ⟨u, s₂, hadvance, h⟩ := bind_eq_ok.1 h
      cases h
      exact ⟨s₁, huntil, u, hadvance⟩
    · rintro ⟨s₁, huntil, u, hadvance⟩
      exact ⟨trees, s₁, huntil, bind_run_ok hadvance _⟩

theorem skipUntil_stay_iff (hf : s.feed.Ends) :
    skipUntil p true s = .ok trees s' ↔
      ∃ first last, Passes s (first :: tokensOf trees) s' ∧ UpTo p nestingLimit trees ∧
        Shows last s' ∧ p.accepts last = true := by
  rw [skipUntil_eq_ok]
  constructor
  · rintro ⟨s₁, huntil, rfl⟩
    exact treesUntil_passes (groupWithin_passes nestingLimit) huntil
  · rintro ⟨first, last, hpasses, htrees, hlast, haccepts⟩
    have huntil := treesUntil_of_passes (groupWithin_reads nestingLimit) hf htrees hpasses hlast
      haccepts
    exact ⟨s', huntil, rfl⟩

theorem skipUntil_pass_iff (hf : s.feed.Ends) :
    skipUntil p false s = .ok trees s' ↔
      ∃ first last, Passes s (first :: (tokensOf trees ++ [last])) s' ∧
        UpTo p nestingLimit trees ∧ p.accepts last = true := by
  rw [skipUntil_eq_ok]
  constructor
  · rintro ⟨s₁, huntil, u, hadvance⟩
    obtain ⟨first, last, hpasses, htrees, hlast, haccepts⟩ :=
      treesUntil_passes (groupWithin_passes nestingLimit) huntil
    exact ⟨first, last, hpasses.append (.cons (token_of_shows hlast) hadvance .nil), htrees,
      haccepts⟩
  · rintro ⟨first, last, hpasses, htrees, haccepts⟩
    obtain ⟨s₁, hinner, hpast⟩ := Passes.split
      (show Passes s ((first :: tokensOf trees) ++ [last]) s' from hpasses)
    obtain ⟨v, hv⟩ := hinner.begun_cons
    obtain ⟨rfl, -, -⟩ := hpast.looked (token_of_shows hv)
    cases hpast with
    | cons current next rest =>
      rw [token_of_shows hv] at current
      cases current
      cases rest
      exact ⟨s₁, treesUntil_of_passes (groupWithin_reads nestingLimit) hf htrees hinner hv haccepts,
        _, next⟩

/-- From any stream over a source that ends, a group is read exactly where its tokens are coming
with any token behind them, and passing them is all that reading it does; one bracket inside
as many others as may be open is refused.  A list of trees goes up to the first token outside
brackets that fits. -/
theorem groups_invert_tokens {s : TokenStream} (hs : s.feed.Ends) :
    (∀ tree s', TokenStream.group s = .ok tree s' ↔
      tree.IsGroup ∧ tree.depth ≤ nestingLimit ∧ Passes s tree.tokens s') ∧
    (∀ e s', TokenStream.group s = .error e s' ∧ e.fault = .nestingTooDeep ↔
      ∃ ts o, Sinks nestingLimit s ts o s' ∧ e = .nestingTooDeep o) ∧
    (∀ p trees s', skipUntil p true s = .ok trees s' ↔
      ∃ first last, Passes s (first :: tokensOf trees) s' ∧ UpTo p nestingLimit trees ∧
        Shows last s' ∧ p.accepts last = true) ∧
    ∀ p trees s', skipUntil p false s = .ok trees s' ↔
      ∃ first last, Passes s (first :: (tokensOf trees ++ [last])) s' ∧
        UpTo p nestingLimit trees ∧ p.accepts last = true := by
  refine ⟨fun tree s' => ⟨groupWithin_passes nestingLimit, ?_⟩,
    fun e s' => groupWithin_refuses nestingLimit hs, fun p trees s' => skipUntil_stay_iff hs,
    fun p trees s' => skipUntil_pass_iff hs⟩
  rintro ⟨htree, hdepth, hpasses⟩
  exact groupWithin_reads nestingLimit hs htree hdepth hpasses

/-- A group inside a group, behind which a name stands. -/
theorem groups_invert_tokens_nested :
    (TokenFeed.ofText "(a[b]) c").Ends ∧
      ∃ tree s', TokenStream.group (ofFeed (TokenFeed.ofText "(a[b]) c")) = .ok tree s' ∧
        tree.tokens.map (·.value) = ["(", "a", "[", "b", "]", ")"] ∧ tree.IsGroup ∧
        tree.depth ≤ nestingLimit ∧
        Passes (ofFeed (TokenFeed.ofText "(a[b]) c")) tree.tokens s' := by
  have hends := TokenFeed.ends_ofText "(a[b]) c"
  have hfull : (match TokenStream.group (ofFeed (TokenFeed.ofText "(a[b]) c")) with
      | .ok tree _ => tree.tokens.map (·.value) == ["(", "a", "[", "b", "]", ")"]
      | .error _ _ => false) = true := by
    decide +kernel
  cases hrun : TokenStream.group (ofFeed (TokenFeed.ofText "(a[b]) c")) with
  | error e s' =>
    rw [hrun] at hfull
    cases hfull
  | ok tree s' =>
    rw [hrun] at hfull
    exact ⟨hends, tree, s', rfl, eq_of_beq hfull, ((groups_invert_tokens hends).1 tree s').1 hrun⟩

end TokenStream

end ScriptOutline
