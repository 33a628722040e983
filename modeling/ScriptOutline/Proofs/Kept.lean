/-
What is kept without being understood is a piece of the text.

Along the derivation of a script the parts that are kept as trees stand one behind another,
`Placed`.  Semicolons that were put in aside, the tokens that a reader meets between two
places are those of the source between the tokens that the places belong to.
-/
import ScriptOutline.Proofs.Nesting

namespace ScriptOutline

open TokenTree Node Semicolons

/-- The parts keep tokens between `j` and `k`, each behind the one before it. -/
inductive Placed (m : Nat → Token) : Nat → List (List TokenTree) → Nat → Prop where
  | nil {j k : Nat} (le : j ≤ k) : Placed m j [] k
  | cons {j a b k : Nat} {part : List TokenTree} {parts : List (List TokenTree)} (le : j ≤ a)
    (kept : Kept m a part b) (rest : Placed m b parts k) : Placed m j (part :: parts) k

variable {m : Nat → Token} {i j k l n : Nat} {parts parts' : List (List TokenTree)}

namespace Placed

theorem one {part : List TokenTree} (h : Kept m j part k) : Placed m j [part] k :=
  .cons (Nat.le_refl j) h (.nil (Nat.le_refl k))

theorem before (hij : i ≤ j) (h : Placed m j parts k) : Placed m i parts k := by
  cases h with
  | nil le => exact .nil (Nat.le_trans hij le)
  | cons le kept rest => exact .cons (Nat.le_trans hij le) kept rest

theorem behind (h : Placed m j parts k) (hkl : k ≤ l) : Placed m j parts l := by
  induction h with
  | nil le => exact .nil (Nat.le_trans le hkl)
  | cons le kept _ ih => exact .cons le kept (ih hkl)

theorem append (h : Placed m j parts k) (h' : Placed m k parts' l) :
    Placed m j (parts ++ parts') l := by
  induction h with
  | nil le => exact h'.before le
  | cons le kept _ ih => exact .cons le kept (ih h')

theorem index_le (h : Placed m j parts k) : j ≤ k := by
  induction h with
  | nil le => exact le
  | cons le kept _ ih => exact Nat.le_trans le (Nat.le_trans kept.le ih)

end Placed

theorem TailRead.placed {x y : Stage} {tail : Option (List TokenTree)} (h : TailRead m x tail y) :
    Placed m x.index tail.toList y.index := by
  cases h with
  | none => exact .nil (Nat.le_refl _)
  | some _ kept _ => exact .one kept

theorem Reads.placed {x y : Stage} {ns : List Node} (h : Reads m n x ns y) :
    Placed m x.index (keptAll ns) y.index := by
  induction h with
  | nil => exact .nil (Nat.le_refl _)
  | append _ _ ih ih' =>
    rw [keptAll_append]
    exact ih.append ih'
  | passing before _ behind ih => exact (ih.before before).behind behind
  | dropping _ dropped ih => exact ih.behind dropped.index_le
  | deeper _ _ ih => exact ih
  | recommented comments _ ih =>
    rw [keptAll_singleton] at ih ⊢
    rw [kept_withComments]
    exact ih
  | declaration | returnNothing | primitive => exact .nil (Nat.le_refl _)
  | object kept | expression kept => exact .one kept
  | skipped _ kept => exact .one kept
  | returnValue _ ih | instantiation _ ih =>
    rw [keptAll_singleton] at ih ⊢
    exact ih
  | assignment _ _ _ ih =>
    rw [keptAll_singleton] at ih ⊢
    exact ih.before (Nat.le_succ _)
  | block _ ih | array _ ih =>
    rw [keptAll_singleton]
    exact ih
  | function named _ ih =>
    rw [keptAll_singleton]
    exact ih.before (Nat.le_of_lt named.index_lt)
  | call root _ ih =>
    rw [keptAll_singleton]
    exact ih.before (Nat.le_of_lt root.index_lt)
  | immediate named _ _ ih ih' =>
    rw [keptAll_singleton]
    exact (ih.append ih').before (Nat.le_of_lt named.index_lt)
  | reference root rest =>
    rw [keptAll_singleton]
    exact rest.placed.before (Nat.le_of_lt root.index_lt)
  | invocation root _ _ rest ih ih' =>
    rw [keptAll_singleton]
    exact ((ih.append ih').append rest.placed).before (Nat.le_of_lt root.index_lt)

variable {r : Nat → Token}

/-- The index in the source of the first token that is not before index `k` of the corrected
sequence. -/
def sourceIndex (r : Nat → Token) (k : Nat) : Nat := (place r k).source

theorem sourceIndex_mono (h : j ≤ k) : sourceIndex r j ≤ sourceIndex r k := source_mono r h

/-- A place adds its token to those of the source, unless it is that of a semicolon. -/
theorem stretch_source_succ (r : Nat → Token) (k : Nat) :
    [corrected r k].filter (! ·.inserted) =
      (stretch r (sourceIndex r k) (sourceIndex r (k + 1))).filter (! ·.inserted) := by
  rw [sourceIndex, sourceIndex, corrected, place]
  cases place r k with
  | token i =>
    have hsource : (Place.next r (.token i)).source = i + 1 := by
      rw [Place.next]
      split <;> rfl
    rw [hsource]
    show [r i].filter _ = (stretch r i (i + 1)).filter _
    rw [stretch_succ]
  | semicolon i =>
    -- the semicolon belongs to the token behind it, which is still to come
    show [Token.semicolonBefore (r i)].filter _ = (stretch r i i).filter _
    rw [stretch_self]
    rfl

theorem filter_stretch_corrected (r : Nat → Token) (h : j ≤ k) :
    (stretch (corrected r) j k).filter (! ·.inserted) =
      (stretch r (sourceIndex r j) (sourceIndex r k)).filter (! ·.inserted) := by
  induction k, h using Nat.le_induction with
  | base => rw [stretch_self, stretch_self]
  | succ k h ih =>
    rw [← stretch_append h (Nat.le_succ k), stretch_succ, List.filter_append, ih,
      stretch_source_succ, ← List.filter_append,
      stretch_append (sourceIndex_mono h) (sourceIndex_mono (Nat.le_succ k))]

/-- The part is the piece `p` of the tokens, and no semicolon that was put in stands in it
outside brackets. -/
structure Kept.Piece (tokens : List Token) (part : List TokenTree) (p : Nat × Nat) : Prop where
  le : p.1 ≤ p.2
  inside : p.2 ≤ tokens.length
  tokens : (tokensOf part).filter (! ·.inserted) = tokens.extract p.1 p.2
  top : ∀ t, .leaf t ∈ part → t.isPutIn = false

theorem length_stretch (r : Nat → Token) (j k : Nat) : (stretch r j k).length = k - j := by
  rw [stretch, List.length_map, List.length_range']

theorem extract_stretch (hij : i ≤ j) (hjk : j ≤ k) (rest : List Token) :
    (stretch r 0 k ++ rest).extract i j = stretch r i j := by
  have hfirst : (stretch r 0 i).length = i := length_stretch r 0 i
  have hmid : (stretch r i j).length = j - i := length_stretch r i j
  rw [← stretch_append (Nat.zero_le i) (Nat.le_trans hij hjk), ← stretch_append hij hjk,
    List.append_assoc, List.append_assoc, List.extract_eq_take_drop, List.drop_left' hfirst,
    List.take_left' hmid]

/-- The parts are pieces of a source none of whose tokens was put in. -/
theorem Placed.pieces (h : Placed (corrected r) j parts k) {tokens rest : List Token}
    (htokens : tokens = stretch r 0 (sourceIndex r k) ++ rest)
    (hplain : ∀ i, (r i).inserted = false) :
    ∃ places : List (Nat × Nat), List.Forall₂ (Kept.Piece tokens) parts places ∧
      places.Pairwise (fun p q => p.2 ≤ q.1) ∧ ∀ p ∈ places, sourceIndex r j ≤ p.1 := by
  induction h with
  | nil _ => exact ⟨[], .nil, .nil, by simp⟩
  | @cons j a b k part parts le kept placed ih =>
    obtain ⟨places, hpieces, hordered, hbehind⟩ := ih htokens
    have hab : sourceIndex r a ≤ sourceIndex r b := sourceIndex_mono kept.le
    have hbk : sourceIndex r b ≤ sourceIndex r k := sourceIndex_mono placed.index_le
    refine ⟨(sourceIndex r a, sourceIndex r b) :: places, .cons ⟨hab, ?_, ?_, kept.top⟩ hpieces,
      List.pairwise_cons.2 ⟨hbehind, hordered⟩, List.forall_mem_cons.2 ⟨sourceIndex_mono le, ?_⟩⟩
    · rw [htokens, List.length_append, length_stretch]
      omega
    · rw [kept.tokens, filter_stretch_corrected r kept.le, htokens, extract_stretch hab hbk]
      exact List.filter_eq_self.2 fun t ht => by
        obtain ⟨n, -, rfl⟩ := List.mem_map.1 ht
        rw [hplain]
        rfl
    · intro p hp
      exact Nat.le_trans (sourceIndex_mono (Nat.le_trans le kept.le)) (hbehind p hp)

theorem Scan.stretch_prefix {items : List (Except LexError Token)} (final : Except LexError Token)
    (hn : n ≤ items.length) (hitem : ∀ i, i < n → items[i]? = some (.ok (r i)))
    (hinside : ∀ i, i < n → (r i).isEof = false) :
    (ofItems final items).tokens = stretch r 0 n ++ (ofItems final (items.drop n)).tokens := by
  induction n with
  | zero => rfl
  | succ n ih =>
    have hdrop : items.drop n = .ok (r n) :: items.drop (n + 1) := by
      have hget := hitem n (Nat.lt_succ_self n)
      rw [List.getElem?_eq_some_iff] at hget
      obtain ⟨hlt, hget⟩ := hget
      rw [List.drop_eq_getElem_cons hlt, hget]
    rw [ih (Nat.le_of_succ_le hn) (fun i hi => hitem i (Nat.lt_succ_of_lt hi))
      (fun i hi => hinside i (Nat.lt_succ_of_lt hi)), hdrop, ofItems,
      if_neg (by rw [hinside n (Nat.lt_succ_self n)]; exact Bool.false_ne_true),
      ← stretch_append (Nat.zero_le n) (Nat.le_succ n), stretch_succ, List.append_assoc]
    rfl

theorem Scan.stretch_of_arrived [IdentifierTable] {text : String} {s : TokenStream}
    (h : s.Arrived (.ofText text) (TokenFeed.ofText text).raw k) :
    ∃ rest, (Scan.ofText text).tokens =
      stretch (TokenFeed.ofText text).raw 0 (sourceIndex (TokenFeed.ofText text).raw k) ++ rest := by
  rcases Nat.eq_zero_or_pos k with rfl | hk
  · exact ⟨_, rfl⟩
  have hgiven := h.at_.given hk
  have hraw := h.inside.raw
  -- behind its items the feed has nothing but an end of the input, and none has been met
  have hlt (i : Nat) (hi : i < sourceIndex (TokenFeed.ofText text).raw k) :
      i < (TokenFeed.ofText text).size := by
    by_contra hle
    have heof : ((TokenFeed.ofText text).raw i).isEof = true :=
      TokenFeed.isEof_raw (given_mono hgiven (Nat.le_of_lt hi))
        (Nat.le_of_not_lt hle)
    rw [hraw i hi] at heof
    cases heof
  refine ⟨_, Scan.stretch_prefix _ ?_ (fun i hi => ?_) hraw⟩
  · rw [← (TokenFeed.ofText text).size_eq]
    by_contra hgt
    exact absurd (hlt _ (Nat.lt_of_not_le hgt)) (Nat.lt_irrefl _)
  · have hitem := hgiven i (Nat.le_of_lt hi)
    have hsize := hlt i hi
    rw [(TokenFeed.ofText text).size_eq] at hsize
    rw [TokenFeed.item, List.getD_eq_getElem?_getD, List.getElem?_eq_getElem hsize] at hitem
    rw [List.getElem?_eq_getElem hsize, ← hitem]
    rfl

/-- Every part of a script that is kept as trees is a piece of the tokens of its text, and
the pieces follow one another. -/
theorem Script.kept_pieces [IdentifierTable] {text : String} {s : Script}
    (h : ofText text = .ok s) :
    ∃ places : List (Nat × Nat),
      List.Forall₂ (Kept.Piece (Scan.ofText text).tokens) (keptAll s.body) places ∧
      places.Pairwise fun p q => p.2 ≤ q.1 := by
  obtain ⟨x, t, hreads, -, harrived⟩ := derivation h
  obtain ⟨rest, htokens⟩ := Scan.stretch_of_arrived harrived
  obtain ⟨places, hpieces, hordered, -⟩ := hreads.placed.pieces htokens fun i =>
    (TokenFeed.scanned_raw _ i).inserted
  exact ⟨places, hpieces, hordered⟩

/-- A tail with a group in it, and a jump whose semicolon is put in and not kept. -/
theorem Script.kept_pieces_jump :
    ∃ s, ofText "a ? \x7bb\x7d : c; if (d) break\ne" = .ok s ∧
      (keptAll s.body).map (fun part => (tokensOf part).map (·.value)) =
        [["?", "\x7b", "b", "\x7d", ":", "c"], ["if", "(", "d", ")", "break"]] ∧
      ∃ places : List (Nat × Nat),
        List.Forall₂ (Kept.Piece (Scan.ofText "a ? \x7bb\x7d : c; if (d) break\ne").tokens)
          (keptAll s.body) places ∧
        places.Pairwise fun p q => p.2 ≤ q.1 := by
  have hfull : (ofText "a ? \x7bb\x7d : c; if (d) break\ne").toOption.any (fun s =>
      (keptAll s.body).map (fun part => (tokensOf part).map (·.value)) ==
        [["?", "\x7b", "b", "\x7d", ":", "c"], ["if", "(", "d", ")", "break"]]) = true := by
    decide +kernel
  obtain ⟨s, hs, hparts⟩ := exists_of_any hfull
  exact ⟨s, hs, eq_of_beq hparts, kept_pieces hs⟩

end ScriptOutline
