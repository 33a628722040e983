/-
What is assigned to stands in reading order.

The targets of assignments are names that are met one behind the other while a script is read,
`Reads.targets`.  In a text each of them starts behind the one before it, and what starts behind
has a later position, `Lines.positionOf_before`.
-/
import ScriptOutline.Proofs.Located
import ScriptOutline.Proofs.WarningOrder

namespace ScriptOutline

open Text Semicolons

namespace Position

variable {p q r : Position}

theorem before_iff :
    p.before q = true ↔ p.line < q.line ∨ p.line = q.line ∧ p.column < q.column := by
  simp [before]

theorem before_trans (h : p.before q = true) (h' : q.before r = true) : p.before r = true := by
  rw [before_iff] at *
  omega

theorem before_asymm (h : p.before q = true) : ¬ q.before p = true := by
  rw [before_iff] at *
  omega

end Position

namespace Cursor

variable {c : Cursor}

theorem before_step {ch : Char} {rest : List Char} (h : c.rest = ch :: rest) :
    c.position.before c.step.position = true := by
  rw [Position.before_iff, step, h]
  dsimp only
  split
  · exact .inl (Nat.lt_succ_self _)
  · exact .inr ⟨rfl, Nat.lt_succ_self _⟩

theorem before_move {body tail : List Char} (h : c.rest = body ++ tail) (hne : body ≠ []) :
    c.position.before (c.move body.length).position = true := by
  induction body generalizing c with
  | nil => exact absurd rfl hne
  | cons ch body ih =>
    have hfirst := before_step h
    have hrest : c.step.rest = body ++ tail := by rw [rest_step, h, List.cons_append, List.tail_cons]
    cases body with
    | nil => exact hfirst
    | cons ch' body => exact Position.before_trans hfirst (ih hrest (List.cons_ne_nil _ _))

end Cursor

theorem Boundary.positionOf_eq {text : String} {before behind : List Char}
    (h : text.toList = before ++ behind) :
    (Lines.ofText text).positionOf text (byteLength before) =
      ((Cursor.ofText text).move before.length).position := by
  have hreached := (Cursor.reached_ofText text).move before.length
  rw [← hreached.positionOf_eq, Cursor.offset_move_length (c := .ofText text) h]
  simp [Cursor.ofText]

/-- The farther behind a character starts, the later its position. -/
theorem Lines.positionOf_before {text : String} {i j : Nat} (hi : Boundary text i)
    (hj : Boundary text j) (hij : i < j) :
    ((ofText text).positionOf text i).before ((ofText text).positionOf text j) = true := by
  obtain ⟨before, behind, htext, rfl⟩ := hi
  obtain ⟨before', behind', htext', rfl⟩ := hj
  obtain ⟨between, rfl, hbehind⟩ :=
    Columns.eq_append_of_byteLength_le (htext.symm.trans htext') (Nat.le_of_lt hij)
  have hne : between ≠ [] := by
    rintro rfl
    simp at hij
  rw [Boundary.positionOf_eq htext, Boundary.positionOf_eq htext', List.length_append,
    Cursor.move_add]
  have hrest : ((Cursor.ofText text).move before.length).rest = between ++ behind' := by
    rw [Cursor.rest_move_length (c := .ofText text) htext, hbehind]
  exact Cursor.before_move hrest hne

namespace Node

/-- What a node assigns to, by its first token. -/
def target? : Node → Option Token
  | assignment _ target _ _ => some target.root
  | _ => none

def targets (ns : List Node) : List Token := (preorderAll ns).filterMap target?

variable {node : Node} {ms ns : List Node}

theorem targets_append (ms ns : List Node) : targets (ms ++ ns) = targets ms ++ targets ns := by
  rw [targets, preorderAll_append, List.filterMap_append]
  rfl

/-- The target of a node stands before those of the nodes in it. -/
theorem targets_around (h : preorder node = node :: preorderAll ns) :
    targets [node] = node.target?.toList ++ targets ns := by
  rw [targets, preorderAll_singleton, h, List.filterMap_cons]
  cases node.target? <;> rfl

theorem targets_withComments (node : Node) (comments : List Comment) :
    targets [node.withComments comments] = targets [node] := by
  cases node <;> rfl

end Node

open Node

/-- The tokens are names among those from index `j` up to index `k`, one behind the other. -/
structure Picked (m : Nat → Token) (j : Nat) (ts : List Token) (k : Nat) : Prop where
  le : j ≤ k
  sublist : ts.Sublist ((stretch m j k).filter (·.kind == .name))

namespace Picked

variable {m : Nat → Token} {i j k l : Nat} {ts us : List Token}

theorem nil (h : j ≤ k) : Picked m j [] k := ⟨h, List.nil_sublist _⟩

theorem append (h : Picked m j ts k) (h' : Picked m k us l) : Picked m j (ts ++ us) l := by
  refine ⟨Nat.le_trans h.le h'.le, ?_⟩
  rw [← stretch_append h.le h'.le, List.filter_append]
  exact h.sublist.append h'.sublist

theorem before (hij : i ≤ j) (h : Picked m j ts k) : Picked m i ts k := (nil hij).append h

theorem behind (h : Picked m j ts k) (hkl : k ≤ l) : Picked m j ts l := by
  rw [← List.append_nil ts]
  exact h.append (nil hkl)

theorem one (h : (m j).kind = .name) : Picked m j [m j] (j + 1) := by
  refine ⟨Nat.le_succ j, ?_⟩
  rw [stretch_succ, List.filter_cons_of_pos (by simp [h])]
  exact List.Sublist.refl _

end Picked

/-- What is assigned to while nodes are read are names that are met in that order. -/
theorem Reads.targets {m : Nat → Token} {n : Nat} {x y : Stage} {ns : List Node}
    (h : Reads m n x ns y) : Picked m x.index (Node.targets ns) y.index := by
  induction h with
  | nil | declaration | returnNothing | primitive => exact .nil (Nat.le_refl _)
  | append _ _ ih ih' =>
    rw [targets_append]
    exact ih.append ih'
  | passing before _ behind ih => exact (ih.before before).behind behind
  | dropping _ dropped ih => exact ih.behind dropped.index_le
  | deeper _ _ ih => exact ih
  | recommented comments _ ih =>
    rw [targets_withComments]
    exact ih
  | object kept | expression kept => exact .nil kept.le
  | skipped lt _ => exact .nil (Nat.le_of_lt lt)
  | @assignment n x y comments target operator value root named _ ih =>
    have htarget : Picked m x.index [target.root] x.next.index := root ▸ .one named
    rw [targets_around (by rw [preorderAll_singleton]; rfl)]
    exact htarget.append ih
  | returnValue _ ih | instantiation _ ih =>
    rw [targets_around (by rw [preorderAll_singleton]; rfl)]
    exact ih
  | block _ ih | array _ ih =>
    rw [targets_around rfl]
    exact ih
  | function named _ ih =>
    rw [targets_around rfl]
    exact ih.before (Nat.le_of_lt named.index_lt)
  | immediate named _ _ ih ih' =>
    rw [targets_around (by rw [preorderAll_append]; rfl), targets_append]
    exact (ih.append ih').before (Nat.le_of_lt named.index_lt)
  | reference root rest =>
    rw [targets_around (show preorder _ = _ :: preorderAll [] from rfl)]
    exact .nil (Nat.le_trans (Nat.le_of_lt root.index_lt) rest.index_le)
  | call root _ ih =>
    rw [targets_around rfl]
    exact ih.before (Nat.le_of_lt root.index_lt)
  | invocation root _ _ rest ih ih' =>
    rw [targets_around (by rw [preorderAll_append]; rfl), targets_append]
    exact ((ih.append ih').behind rest.index_le).before (Nat.le_of_lt root.index_lt)

theorem TokenFeed.located_item [IdentifierTable] (text : String) (i : Nat) :
    LocatedItem text ((ofText text).item i) := by
  obtain ⟨hitems, hfinal⟩ := located_ofLexer (Lexer.reached_ofText text)
  rw [item, List.getD_eq_getElem?_getD]
  cases hi : (ofText text).items[i]? with
  | none => exact hfinal
  | some item => exact hitems item (List.mem_of_getElem? hi)

/-- The tokens that have been met stand in the text. -/
theorem TokenStream.Arrived.located [IdentifierTable] {text : String} {t : TokenStream} {i k : Nat}
    (h : Arrived (.ofText text) (TokenFeed.ofText text).raw k t) (hi : i < k) :
    Located text (corrected (TokenFeed.ofText text).raw i).location := by
  have hgiven := h.at_.given (Nat.zero_lt_of_lt hi)
  have hraw (j : Nat) (hj : j ≤ (place (TokenFeed.ofText text).raw i).source) :
      Located text ((TokenFeed.ofText text).raw j).location := by
    have hitem := TokenFeed.located_item text j
    rw [hgiven j (Nat.le_trans hj (source_mono _ (Nat.le_of_lt hi)))] at hitem
    exact hitem.1
  rw [corrected]
  cases hplace : place (TokenFeed.ofText text).raw i with
  | token j => exact hraw j (by rw [hplace]; exact Nat.le_refl j)
  | semicolon j => exact (hraw j (by rw [hplace]; exact Nat.le_refl j)).front

/-- Each target has a later position than the one before it. -/
theorem Script.targets_in_order [IdentifierTable] {text : String} {s : Script}
    (h : ofText text = .ok s) :
    (targets s.body).Pairwise fun t u => t.location.position.before u.location.position = true := by
  obtain ⟨x, t, hreads, -, harrived⟩ := derivation h
  refine List.Pairwise.sublist hreads.targets.sublist (List.pairwise_filter.2 ?_)
  rw [stretch, List.pairwise_map]
  refine List.Pairwise.imp_of_mem (fun {i j} _ hj hij hname _ => ?_) List.pairwise_lt_range'
  have hj : j < x.index := by
    obtain ⟨-, hj⟩ := List.mem_range'_1.1 hj
    simpa using hj
  have hread := Token.isPutIn_of_kind (beq_iff_eq.1 hname) (by decide)
  have hstart := harrived.start_lt hread hij (Nat.le_of_lt hj)
  have hi := harrived.located (Nat.lt_trans hij hj)
  have hj := harrived.located hj
  rw [hi.position, hj.position]
  exact Lines.positionOf_before hi.starts hj.starts hstart

end ScriptOutline
