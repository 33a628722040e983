/-
Every location that reading a text reports is a place in that text.

Locations are made by the scanner, from a cursor to a later one.  The readers hand them
on: a failure or a warning has the location of a token that was scanned, or of the
semicolon put in before one.
-/
import ScriptOutline.Proofs.AbreastScript
import ScriptOutline.Proofs.Columns

namespace ScriptOutline

open Text

/-- An offset between two characters of a text, or at one of its ends. -/
def Boundary (text : String) (offset : Nat) : Prop :=
  ∃ before behind, text.toList = before ++ behind ∧ byteLength before = offset

/-- A stretch of whole characters of a text, with the position of the first. -/
structure Located (text : String) (l : Location) : Prop where
  ordered : l.span.start ≤ l.span.stop
  inText : l.span.stop ≤ byteLength text.toList
  starts : Boundary text l.span.start
  stops : Boundary text l.span.stop
  position : l.position = (Lines.ofText text).positionOf text l.span.start

variable {text : String}

theorem Boundary.le {offset : Nat} (h : Boundary text offset) :
    offset ≤ byteLength text.toList := by
  obtain ⟨before, behind, htext, rfl⟩ := h
  rw [htext, byteLength_append]
  exact Nat.le_add_right _ _

theorem Located.front {l : Location} (h : Located text l) : Located text l.front where
  ordered := Nat.le_refl _
  inText := h.starts.le
  starts := h.starts
  stops := h.starts
  position := h.position

theorem Cursor.Reached.boundary {c : Cursor} (h : c.Reached text) : Boundary text c.offset := by
  obtain ⟨head, line, h⟩ := h
  refine ⟨head ++ line, c.rest, ?_, ?_⟩
  · rw [h.text, List.append_assoc]
  · rw [byteLength_append, h.offset]

theorem Cursor.Reached.located {c : Cursor} (h : c.Reached text) (n : Nat) :
    Located text (c.locate (c.move n)) := by
  have hle : c.offset ≤ (c.move n).offset := by
    rw [Cursor.offset_move]
    exact Nat.le_add_right _ _
  have hstop : (c.locate (c.move n)).span.stop = (c.move n).offset := Span.stop_between hle
  refine ⟨?_, ?_, h.boundary, ?_, h.positionOf_eq.symm⟩
  · rw [hstop]
    exact hle
  · rw [hstop]
    exact (h.move n).boundary.le
  · rw [hstop]
    exact (h.move n).boundary

namespace Gap

theorem reached_read {c : Cursor} (h : c.Reached text) : (read c).cursor.Reached text := by
  fun_induction read c with
  | case1 c body hrest text after ih => exact ih (h.move _)
  | case2 c body hrest text rest hc after ih => exact ih (h.move _)
  | case3 => exact h
  | case4 c ch rest _ _ hrest hb next ih => exact ih (h.move 1)
  | case5 c ch rest _ _ hrest hb hw ih => exact ih (h.move 1)
  | case6 => exact h
  | case7 => exact h

theorem located_read {c : Cursor} (h : c.Reached text) :
    ∀ comment ∈ (read c).comments, Located text comment.location := by
  fun_induction read c with
  | case1 c body hrest _ after ih =>
    intro comment hmem
    rcases List.mem_cons.1 hmem with rfl | hmem
    · exact h.located _
    · exact ih (h.move _) comment hmem
  | case2 c body hrest _ rest hc after ih =>
    intro comment hmem
    rcases List.mem_cons.1 hmem with rfl | hmem
    · exact h.located _
    · exact ih (h.move _) comment hmem
  | case3 => simp
  | case4 c ch rest _ _ hrest hb next ih => exact ih (h.move 1)
  | case5 c ch rest _ _ hrest hb hw ih => exact ih (h.move 1)
  | case6 => simp
  | case7 => simp

end Gap

def LocatedItem (text : String) : Except LexError Token → Prop
  | .ok t => Located text t.location ∧ ∀ comment ∈ t.comments, Located text comment.location
  | .error e => Located text e.location

namespace Lexer

theorem reached_next [IdentifierTable] {l : Lexer} (h : l.cursor.Reached text) :
    l.next.2.cursor.Reached text := by
  have hgap := Gap.reached_read h
  unfold next
  dsimp only
  split
  · exact hgap
  · split
    · exact hgap.move _
    · exact hgap.move _

/-- A scan locates what it gives, whether it succeeds or fails. -/
theorem located_next [IdentifierTable] {l : Lexer} (h : l.cursor.Reached text) :
    LocatedItem text l.next.1 := by
  have hgap := Gap.reached_read h
  unfold next
  dsimp only
  split
  · exact hgap.located _
  · split
    · exact ⟨hgap.located _, Gap.located_read h⟩
    · exact hgap.located _

theorem reached_ofText (text : String) : (ofText text).cursor.Reached text :=
  (Cursor.reached_ofText text).move _

theorem reached_after [IdentifierTable] (text : String) (n : Nat) :
    ((ofText text).after n).cursor.Reached text := by
  induction n with
  | zero => exact reached_ofText text
  | succ n ih => exact reached_next ih

end Lexer

namespace TokenFeed

theorem located_ofLexer [IdentifierTable] {l : Lexer} (h : l.cursor.Reached text) :
    (∀ item ∈ (ofLexer l).items, LocatedItem text item) ∧ LocatedItem text (ofLexer l).final := by
  fun_induction ofLexer l with
  | case1 l step hmoves ih =>
    obtain ⟨hitems, hfinal⟩ := ih (Lexer.reached_next h)
    refine ⟨fun item hmem => ?_, hfinal⟩
    rcases List.mem_cons.1 hmem with rfl | hmem
    · exact Lexer.located_next h
    · exact hitems item hmem
  | case2 l step hstays =>
    refine ⟨fun item hmem => ?_, Lexer.located_next h⟩
    cases hmem

end TokenFeed

/-! ## The readers -/

namespace Pairing

def located (text : String) : Pairing :=
  whole (fun s t => s = t ∧ Located text s.location) (fun d e => d = e ∧ Located text d.location)
    fun h => congrArg Token.signs h.1

theorem Met.located {s t : Token} (h : (located text).Met s t) : Located text t.location := by
  cases h with
  | token h => exact h.1 ▸ h.2
  | semicolon h => exact (h.1 ▸ h.2 : Located text _).front

theorem located_warnings {vs ws : List Warning} (h : List.Forall₂ (located text).Warned vs ws) :
    ∀ w ∈ ws, Located text w.location := by
  induction h with
  | nil => simp
  | cons hwarned _ ih =>
    obtain ⟨-, _, _, hmet, -, hlocation⟩ := hwarned
    intro w hmem
    rcases List.mem_cons.1 hmem with rfl | hmem
    · rw [hlocation]
      exact hmet.located
    · exact ih w hmem

theorem located_item {item : Except LexError Token} (h : LocatedItem text item) :
    (located text).item item item := by
  cases item with
  | ok t => exact ⟨rfl, h.1⟩
  | error e => exact ⟨rfl, h⟩

theorem feeds_located [IdentifierTable] (text : String) :
    (located text).Feeds [] (.ofText text) (.ofText text) := by
  obtain ⟨hitems, hfinal⟩ := TokenFeed.located_ofLexer (Lexer.reached_ofText text)
  refine ⟨⟨_, (List.append_nil _).symm, ?_⟩, .inl ⟨rfl, located_item hfinal⟩⟩
  exact List.forall₂_same.2 fun item hmem => located_item (hitems item hmem)

end Pairing

/-- What reading a text reports has a location in it. -/
theorem Script.located_ofText [IdentifierTable] (text : String) :
    match Script.ofText text with
    | .ok s => ∀ w ∈ s.warnings, Located text w.location
    | .error e => Located text e.location := by
  rcases ofFeed_whole (fun _ => id) (Pairing.feeds_located text) with
    ⟨_, t, -, ht, -, hwarnings⟩ | ⟨_, e, -, he, hfails⟩
  · rw [show ofText text = .ok t from ht]
    exact Pairing.located_warnings hwarnings
  · rw [show ofText text = .error e from he]
    cases hfails with
    | lexical hlexical => exact (hlexical.1 ▸ hlexical.2 : Located text _)
    | here hmet _ _ hlocation => exact (hlocation ▸ hmet.located : Located text e.location)

/-- Every location that scanning or reading a text reports is a stretch of whole
characters of it, with the position that the lines of the text give for its start.
Positions counted on from one another, in whatever order, are the same. -/
theorem locations_valid [IdentifierTable] (text : String) :
    (∀ n, match ((Lexer.ofText text).after n).next.1 with
      | .ok t => Located text t.location ∧ Located text (Token.semicolonBefore t).location ∧
          ∀ comment ∈ t.comments, Located text comment.location
      | .error e => Located text e.location) ∧
    (match Script.ofText text with
      | .ok s => ∀ w ∈ s.warnings, Located text w.location
      | .error e => Located text e.location) ∧
    (∀ counts : List Nat,
      let offsets := counts.map fun n => byteLength (text.toList.take n)
      ({} : Columns).positionsAt (.ofText text) text offsets =
        offsets.map ((Lines.ofText text).positionOf text)) := by
  refine ⟨fun n => ?_, Script.located_ofText text, fun counts => ?_⟩
  · have hscan := Lexer.located_next (Lexer.reached_after text n)
    cases h : ((Lexer.ofText text).after n).next.1 with
    | ok t =>
      rw [h] at hscan
      exact ⟨hscan.1, hscan.1.front, hscan.2⟩
    | error e =>
      rw [h] at hscan
      exact hscan
  · have hreached (n : Nat) : ((Cursor.ofText text).move n).Reached text :=
      (Cursor.reached_ofText text).move n
    have hoffset (n : Nat) :
        byteLength (text.toList.take n) = ((Cursor.ofText text).move n).offset := by
      rw [Cursor.offset_move]
      simp [Cursor.ofText]
    have hall : ∀ c ∈ counts.map (Cursor.ofText text).move, c.Reached text := by simp [hreached]
    have hcounted := Columns.positionsAt_ofCursor (Cursor.reached_ofText text) hall
    simp only [List.map_map, Function.comp_def] at hcounted ⊢
    simp only [hoffset, (hreached _).positionOf_eq]
    exact hcounted

end ScriptOutline
