/-
Trees of tokens, read from a stream.

`Matched` says what the trees of a stream are like: brackets stand in pairs, and a
group holds no token that would have closed it.  `gather_runs` and `groupWithin_runs` say
that reading gives such trees and that their tokens are the stretch of the stream that
was read.
-/
import ScriptOutline.Proofs.Position

namespace ScriptOutline

namespace TokenTree

def conditionals (n : Nat) : TokenTree → Nat
  | leaf t => TokenStream.conditionalsAfter n t
  | group .. => n

/-- No tree begins with a token that ends the list. -/
def Unended (ends : Nat → Token → Bool) : Nat → List TokenTree → Prop
  | _, [] => True
  | n, tree :: trees => ends n tree.first = false ∧ Unended ends (tree.conditionals n) trees

def closes (opener : Token) : Nat → Token → Bool := fun _ t =>
  (TokenPattern.punctuation (closingOf opener.value)).accepts t || t.isEof

mutual
def Matched : TokenTree → Prop
  | leaf t => t.isOpening = false
  | group opener trees closer =>
    opener.isOpening = true ∧ closer.isPunctuation (closingOf opener.value) = true ∧
      MatchedAll trees ∧ Unended (closes opener) 0 trees

def MatchedAll : List TokenTree → Prop
  | [] => True
  | tree :: trees => Matched tree ∧ MatchedAll trees
end

theorem closes_of_isEof (opener : Token) (n : Nat) (t : Token) (h : t.isEof = true) :
    closes opener n t = true := by
  simp [closes, h]

end TokenTree

/-- The tokens stand in the sequence `s` from index `k` on. -/
def Spans (s : Nat → Token) : Nat → List Token → Prop
  | _, [] => True
  | k, t :: ts => t = s k ∧ Spans s (k + 1) ts

theorem spans_append {s : Nat → Token} {k : Nat} {ts us : List Token} :
    Spans s k (ts ++ us) ↔ Spans s k ts ∧ Spans s (k + ts.length) us := by
  induction ts generalizing k with
  | nil => simp [Spans]
  | cons t ts ih =>
    rw [List.cons_append, Spans, Spans, ih, List.length_cons, and_assoc, Nat.add_right_comm,
      Nat.add_assoc]

namespace TokenStream

open Semicolons TokenTree

variable {f : TokenFeed} {r : Nat → Token} {s s' : TokenStream} {k depth : Nat}

/-- What a reader of one group has found. -/
structure GroupAt (f : TokenFeed) (r : Nat → Token) (k depth : Nat) (tree : TokenTree)
    (s' : TokenStream) : Prop where
  arrived : Arrived f r (k + tree.tokens.length) s'
  spans : Spans (corrected r) k tree.tokens
  matched : tree.Matched
  depth_le : tree.depth ≤ depth
  opens : tree.first.isOpening = true

/-- What a reader of trees has found. -/
structure TreesAt (f : TokenFeed) (r : Nat → Token) (depth : Nat) (ends : Nat → Token → Bool)
    (k n : Nat) (trees : List TokenTree) (s' : TokenStream) : Prop where
  arrived : Arrived f r (k + (tokensOf trees).length) s'
  spans : Spans (corrected r) k (tokensOf trees)
  matched : MatchedAll trees
  depth_le : depthOf trees ≤ depth
  unended : Unended ends n trees
  ended : ends (trees.foldl conditionals n) (corrected r (k + (tokensOf trees).length)) = true

theorem tokens_ne_nil (tree : TokenTree) : 0 < tree.tokens.length := by
  cases tree <;> simp [tokens]

theorem first_eq (tree : TokenTree) (h : Spans (corrected r) k tree.tokens) :
    tree.first = corrected r k := by
  cases tree <;> exact h.1

def gatherStep (group : Streaming TokenTree) (ends : Nat → Token → Bool) (n : Nat) :
    Streaming (Option (TokenTree × Nat)) := do
  let t ← token
  if ends n t then return none
  else if t.isOpening then return some (← group, n)
  else
    let _ ← advance
    return some (.leaf t, conditionalsAfter n t)

theorem TreesAt.cons {ends : Nat → Token → Bool} {n : Nat} {tree : TokenTree}
    {trees : List TokenTree} (hspans : Spans (corrected r) k tree.tokens) (hm : tree.Matched)
    (hd : tree.depth ≤ depth) (hend : ends n tree.first = false)
    (h : TreesAt f r depth ends (k + tree.tokens.length) (tree.conditionals n) trees s') :
    TreesAt f r depth ends k n (tree :: trees) s' := by
  have hlen : k + (tokensOf (tree :: trees)).length =
      k + tree.tokens.length + (tokensOf trees).length := by
    rw [tokensOf, List.length_append, Nat.add_assoc]
  refine ⟨?_, spans_append.2 ⟨hspans, h.spans⟩, ⟨hm, h.matched⟩, Nat.max_le.2 ⟨hd, h.depth_le⟩,
    ⟨hend, h.unended⟩, ?_⟩
  · rw [hlen]
    exact h.arrived
  · rw [hlen]
    exact h.ended

/-- A round takes a token or a group, or finds the end of the list. -/
theorem gatherStep_rounds (hf : f.Offers r) {group : Streaming TokenTree}
    (hgroup : ∀ k, Runs (Arrived f r k) group (GroupAt f r k depth) (Halted f r))
    {ends : Nat → Token → Bool} (hends : ∀ n t, t.isEof = true → ends n t = true) :
    Repeat.Rounds (· < ·) (Arrived f r) (gatherStep group ends) (TreesAt f r depth ends)
      (Halted f r) := by
  intro k n
  refine (token_runs hf k).bind fun t => .assume fun ht => ?_
  subst ht
  refine .ite (fun hend => ?_) fun hend => ?_
  · exact .pure fun s hs => ⟨hs, trivial, trivial, Nat.zero_le _, trivial, hend⟩
  rw [Bool.not_eq_true] at hend
  have he : (corrected r k).isEof = false := by
    cases he : (corrected r k).isEof with
    | false => rfl
    | true =>
      rw [hends n _ he] at hend
      cases hend
  refine .ite (fun hopen => ?_) fun hopen => ?_
  · refine (hgroup k).bind fun tree => .pure fun s hs => ?_
    refine ⟨k + tree.tokens.length, ?_, hs.arrived, fun trees t htrees => ?_⟩
    · have hne := tokens_ne_nil tree
      omega
    · have hfirst := first_eq tree hs.spans
      refine .cons hs.spans hs.matched hs.depth_le (by rw [hfirst]; exact hend) ?_
      cases tree with
      | leaf u =>
        have hclosed : u.isOpening = false := hs.matched
        have hopens : u.isOpening = true := hs.opens
        rw [hclosed] at hopens
        cases hopens
      | group opener inner closer => exact htrees
  · rw [Bool.not_eq_true] at hopen
    refine (advance_runs hf he).bind fun _ => .assume fun _ => .pure fun s hs => ?_
    exact ⟨k + 1, Nat.lt_succ_self k, hs, fun trees t htrees =>
      .cons ⟨rfl, trivial⟩ hopen (Nat.zero_le _) hend htrees⟩

theorem gather_runs (hf : f.Offers r) (hending : f.Ending r) {group : Streaming TokenTree}
    (hgroup : ∀ k, Runs (Arrived f r k) group (GroupAt f r k depth) (Halted f r))
    {ends : Nat → Token → Bool} (hends : ∀ n t, t.isEof = true → ends n t = true) (k : Nat) :
    Runs (Arrived f r k) (gather group ends) (TreesAt f r depth ends k 0) (Halted f r) := by
  refine (gatherStep_rounds hf hgroup hends).collect ?_ k 0
  exact fun x y s t hxy hs ht => remaining_lt_inside hending hs.at_ ht.at_ hxy ht.inside

theorem isOpening_of_accepts {t : Token} (h : TokenPattern.opening.accepts t = true) :
    t.isOpening = true := by
  simp only [TokenPattern.opening, TokenPattern.accepts, List.contains_eq_mem, Bool.and_eq_true,
    beq_iff_eq, decide_eq_true_eq] at h
  obtain ⟨hk, hv⟩ := h
  simp only [List.mem_cons, List.not_mem_nil, or_false] at hv
  rcases hv with hv | hv | hv <;> simp [Token.isOpening, Token.isPunctuation, hk, hv]

theorem accepts_of_isOpening {t : Token} (h : t.isOpening = true) :
    TokenPattern.opening.accepts t = true := by
  simp only [Token.isOpening, Token.isPunctuation, Bool.or_eq_true, Bool.and_eq_true,
    beq_iff_eq] at h
  rcases h with (⟨hk, hv⟩ | ⟨hk, hv⟩) | ⟨hk, hv⟩ <;>
    simp [TokenPattern.opening, TokenPattern.accepts, hk, hv]

theorem isEof_of_isOpening {t : Token} (h : t.isOpening = true) : t.isEof = false := by
  simp only [Token.isOpening, Token.isPunctuation, Bool.or_eq_true, Bool.and_eq_true,
    beq_iff_eq] at h
  rcases h with (⟨hk, -⟩ | ⟨hk, -⟩) | ⟨hk, -⟩ <;> simp [Token.isEof, hk]

theorem isEof_of_accepts {value : String} {t : Token}
    (h : (TokenPattern.punctuation value).accepts t = true) : t.isEof = false := by
  have hp : t.isPunctuation value = true := h
  simp only [Token.isPunctuation, Bool.and_eq_true, beq_iff_eq] at hp
  simp [Token.isEof, hp.1]

/-- What stands in a group, up to the token that closes it. -/
theorem treesUntil_runs (hf : f.Offers r) (hending : f.Ending r) {group : Streaming TokenTree}
    (hgroup : ∀ k, Runs (Arrived f r k) group (GroupAt f r k depth) (Halted f r))
    (hopen : (corrected r k).isOpening = true) :
    Runs (Arrived f r k)
      (treesUntil group (.punctuation (closingOf (corrected r k).value)))
      (fun trees s => (corrected r (k + 1 + (tokensOf trees).length)).isPunctuation
          (closingOf (corrected r k).value) = true ∧
        TreesAt f r depth (closes (corrected r k)) (k + 1) 0 trees s)
      (Halted f r) := by
  refine (advance_runs hf (isEof_of_isOpening hopen)).bind fun _ => .assume fun _ => ?_
  refine (gather_runs hf hending hgroup (closes_of_isEof _) (k + 1)).bind fun trees => ?_
  intro s hs
  refine (Runs.bind (token_runs hf _) fun t => ?_) s hs.arrived
  refine .assume fun ht => .ite (fun hclose => ?_) fun _ => .throw fun s hs => hs.halted
  subst ht
  exact .pure fun s' hs' => ⟨hclose, { hs with arrived := hs' }⟩

theorem groupWithin_runs (hf : f.Offers r) (hending : f.Ending r) (depth k : Nat) :
    Runs (Arrived f r k) (groupWithin depth) (GroupAt f r k depth) (Halted f r) := by
  induction depth generalizing k with
  | zero =>
    exact (expect_runs hf _ k).bind fun _ => .assume fun _ => .throw fun s hs => hs.halted
  | succ depth ih =>
    refine (expect_runs hf _ k).bind fun opener => .assume fun hopener => ?_
    obtain ⟨rfl, haccepts⟩ := hopener
    have hopen := isOpening_of_accepts haccepts
    refine (treesUntil_runs hf hending ih hopen).bind fun trees => .assume fun hclose => ?_
    intro s hs
    refine (Runs.bind (token_runs hf _) fun closer => ?_) s hs.arrived
    refine .assume fun hcloser => ?_
    subst hcloser
    refine (advance_runs hf (isEof_of_accepts hclose)).bind fun _ => .assume fun _ => ?_
    refine .pure fun s' hs' => ?_
    have hlen : k + (TokenTree.group (corrected r k) trees
        (corrected r (k + 1 + (tokensOf trees).length))).tokens.length =
          k + 1 + (tokensOf trees).length + 1 := by
      simp only [tokens, List.length_cons, List.length_append, List.length_nil]
      omega
    refine ⟨?_, ⟨rfl, spans_append.2 ⟨hs.spans, rfl, trivial⟩⟩,
      ⟨hopen, hclose, hs.matched, hs.unended⟩, Nat.succ_le_succ hs.depth_le, hopen⟩
    rw [hlen]
    exact hs'

end TokenStream

end ScriptOutline
