/-
Comments are handed to the token before, once.

The cells that have been written are those of all tokens but the last, in order, which
`Stored` says of every stream between two operations.  So a cell is written when the token
behind it is fetched, and semicolons do not come into it.

All of it rests on the cells being empty to begin with, `comments_ofFeed`: tokens come with empty
cells from their source, and the source keeps its hands off them.
-/
import ScriptOutline.Proofs.SharedRuns

namespace ScriptOutline
namespace SharedStream

open Semicolons

variable {s s' : SharedStream} {f : TokenFeed} {r : Nat → Token}

theorem tokens_of_delivers (hs : s.Stored) (hsource : s.source = f) (hf : f.Delivers r) :
    s.tokens = (List.range s.calls).map r := by
  rw [hs.given, hsource, ← List.filterMap_eq_map]
  refine List.filterMap_congr fun i _ => ?_
  rw [hf i]
  rfl

theorem Stored.comments_delivered (h : s.Stored) (ht : s.tokens = (List.range s.calls).map r)
    (i : Nat) :
    s.comments (.token i) = if i + 1 < s.calls then some (r (i + 1)).comments else none := by
  rw [h.comments_token, ht, List.getElem?_map]
  split
  · rename_i hi
    rw [List.getElem?_range hi]
    rfl
  · rename_i hi
    rw [List.getElem?_eq_none (by simpa using Nat.le_of_not_lt hi)]
    rfl

theorem handOvers_prefix {ts us : List Token} (h : ts <+: us) : handOvers ts <+: handOvers us := by
  obtain ⟨rest, rfl⟩ := h
  cases ts with
  | nil => exact List.nil_prefix
  | cons t ts =>
    rw [handOvers, handOvers, List.cons_append, List.tail_cons, List.tail_cons, List.mapIdx_append]
    exact List.prefix_append _ _

theorem nodup_handOvers (ts : List Token) : ((handOvers ts).map Prod.fst).Nodup := by
  have hplaces : (handOvers ts).map Prod.fst = (List.range ts.tail.length).map .token := by
    refine List.ext_getElem (by simp [handOvers]) fun i h h' => ?_
    simp [handOvers]
  rw [hplaces]
  exact List.pairwise_map.2 (List.nodup_range.imp fun hne h => hne (Place.token.inj h))

theorem Stored.tokens_prefix (h : s.Stored) (h' : s'.Stored) (hsource : s'.source = s.source)
    (hcalls : s.calls ≤ s'.calls) : s.tokens <+: s'.tokens := by
  rw [h.given, h'.given, hsource]
  obtain ⟨n, hn⟩ := Nat.exists_eq_add_of_le hcalls
  rw [hn, List.range_add, List.filterMap_append]
  exact List.prefix_append _ _

/-- Over a source without faults, and whatever is asked of the streams, they stay together: the
cell of a token is empty until the next token of the source has been fetched and holds the
comments before that token from then on, a semicolon has nothing in its cell, and no cell is
written twice. -/
theorem comments_handed_over (hf : f.Delivers r) (os : List Operation) :
    let s := (ofFeed f).after os
    let t := (TokenStream.ofFeed f).after os
    (s.view = t ∧ ∀ o, viewed (perform o s) = TokenStream.perform o t) ∧
    s.tokens = (List.range s.calls).map r ∧
    (∀ i, s.comments (.token i) = if i + 1 < s.calls then some (r (i + 1)).comments else none) ∧
    (∀ i, s.comments (.semicolon i) = none) ∧
    (s.writes.map Prod.fst).Nodup ∧
    ∀ os', s.calls ≤ (s.after os').calls ∧ s.writes <+: (s.after os').writes := by
  intro s t
  obtain ⟨-, hs⟩ := after_mirrors os (ready_ofFeed f)
  have htokens := tokens_of_delivers hs.sound.toStored hs.source hf
  refine ⟨runs_alike f os, htokens, hs.sound.comments_delivered htokens,
    hs.sound.comments_semicolon, ?_, fun os' => ?_⟩
  · rw [hs.sound.writes]
    exact nodup_handOvers _
  · obtain ⟨-, hs'⟩ := after_mirrors os' hs.here
    refine ⟨hs'.calls, ?_⟩
    rw [hs.sound.writes, hs'.sound.writes]
    exact handOvers_prefix (hs.sound.tokens_prefix hs'.sound.toStored hs'.source hs'.calls)

/-- A semicolon stands between `return` and a name with a comment before it. -/
theorem comments_handed_over_return :
    let comment : Comment := { kind := .line, text := "c" }
    let back : Token := { kind := .keyword, value := "return" }
    let name : Token := { kind := .name, value := "x", lineBreak := true, comments := [comment] }
    let r : Nat → Token := fun i => if i = 0 then back else if i = 1 then name else { kind := .eof }
    let s := (ofFeed (.ofTokens [back, name])).after [.ask .peek]
    (TokenFeed.ofTokens [back, name]).Delivers r ∧ s.peeked = some (.semicolon 1) ∧
      s.comments (.token 0) = some [comment] ∧ s.comments (.semicolon 1) = none ∧
      s.comments (.token 1) = none := by
  intro comment back name r s
  have hf : (TokenFeed.ofTokens [back, name]).Delivers r := by
    intro i
    match i with
    | 0 => rfl
    | 1 => rfl
    | i + 2 => rfl
  obtain ⟨-, -, hcells, hsemicolons, -⟩ := comments_handed_over hf [.ask .peek]
  have hcalls : s.calls = 2 := rfl
  refine ⟨hf, rfl, ?_, hsemicolons 1, ?_⟩
  · exact (hcells 0).trans (if_pos (by rw [show _ = 2 from hcalls]; decide))
  · exact (hcells 1).trans (if_neg (by rw [show _ = 2 from hcalls]; decide))

end SharedStream

end ScriptOutline
