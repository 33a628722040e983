/-
Kind, value and flags of the tokens decide how they are read.

Two lists of tokens that agree in these, one by one, are sources that correspond from
start to end.  So they give scripts that say the same, with the same warnings at the same
tokens, or the same failure at the same token, wherever the tokens stand and whatever
comments are between them.
-/
import ScriptOutline.Proofs.AbreastScript

namespace ScriptOutline

namespace TokenTree

mutual
theorem alike_of_bare_eq : ∀ (s t : TokenTree), s.bare = t.bare → s.alike t = true
  | .leaf s, .leaf t, h => by
    simp only [bare, leaf.injEq] at h
    simp [alike, h]
  | .leaf _, .group .., h | .group .., .leaf _, h => by
    simp only [bare, reduceCtorEq] at h
  | .group o₁ ss c₁, .group o₂ ts c₂, h => by
    simp only [bare, group.injEq] at h
    simp [alike, h.1, h.2.2, alikeAll_of_bareAll_eq ss ts h.2.1]

theorem alikeAll_of_bareAll_eq : ∀ (ss ts : List TokenTree), bareAll ss = bareAll ts →
    alikeAll ss ts = true
  | [], [], _ => rfl
  | [], _ :: _, h | _ :: _, [], h => by
    simp only [bareAll, reduceCtorEq] at h
  | s :: ss, t :: ts, h => by
    simp only [bareAll, List.cons.injEq] at h
    rw [alikeAll, alike_of_bare_eq s t h.1, alikeAll_of_bareAll_eq ss ts h.2, Bool.and_self]
end

end TokenTree

namespace Node

theorem tailsAlike_of_bareAll_eq {s t : Option (List TokenTree)}
    (h : s.map TokenTree.bareAll = t.map TokenTree.bareAll) : tailsAlike s t = true := by
  match s, t, h with
  | none, none, _ => rfl
  | some s, some t, h => exact TokenTree.alikeAll_of_bareAll_eq s t (Option.some.inj h)

mutual
theorem alike_of_bare_eq : ∀ (m n : Node), m.bare = n.bare → m.alike n = true := by
  intro m n h
  cases m <;> cases n <;> unfold bare at h <;> injection h
  case block.block _ ms _ ns _ h => exact alikeAll_of_bareAll_eq ms ns h
  case declaration.declaration hw ht => simp [alike, hw, ht]
  case assignment.assignment _ _ _ v _ _ _ w _ ht ho hv =>
    simp [alike, ht, ho, alike_of_bare_eq v w hv]
  case function.function _ _ ms _ _ ns _ hh hb =>
    simp [alike, hh, alikeAll_of_bareAll_eq ms ns hb]
  case returnNothing.returnNothing => rfl
  case returnValue.returnValue _ v _ w _ h => exact alike_of_bare_eq v w h
  case call.call _ _ ms _ _ ns _ hc ha => simp [alike, hc, alikeAll_of_bareAll_eq ms ns ha]
  case reference.reference hp ht => simp [alike, hp, tailsAlike_of_bareAll_eq ht]
  case invocation.invocation _ _ as cs _ _ _ bs ds _ _ hp ha hc ht =>
    simp [alike, hp, alikeAll_of_bareAll_eq as bs ha, alikeAll_of_bareAll_eq cs ds hc,
      tailsAlike_of_bareAll_eq ht]
  case instantiation.instantiation _ v _ w _ h => exact alike_of_bare_eq v w h
  case array.array _ ms _ ns _ h => exact alikeAll_of_bareAll_eq ms ns h
  case object.object _ ss _ ts _ h => exact TokenTree.alikeAll_of_bareAll_eq ss ts h
  case primitive.primitive hk ht => simp [alike, hk, ht]
  case expression.expression _ ss _ ts _ h => exact TokenTree.alikeAll_of_bareAll_eq ss ts h
  case immediate.immediate _ _ ms as _ _ ns bs _ hh hb ha =>
    simp [alike, hh, alikeAll_of_bareAll_eq ms ns hb, alikeAll_of_bareAll_eq as bs ha]
  case skipped.skipped _ _ ss _ _ ts _ hk ht =>
    simp [alike, hk, TokenTree.alikeAll_of_bareAll_eq ss ts ht]

theorem alikeAll_of_bareAll_eq : ∀ (ms ns : List Node), bareAll ms = bareAll ns →
    alikeAll ms ns = true
  | [], [], _ => rfl
  | [], _ :: _, h | _ :: _, [], h => by
    simp only [bareAll, reduceCtorEq] at h
  | m :: ms, n :: ns, h => by
    simp only [bareAll, List.cons.injEq] at h
    rw [alikeAll, alike_of_bare_eq m n h.1, alikeAll_of_bareAll_eq ms ns h.2, Bool.and_self]
end

end Node

namespace Token

/-- Tokens that differ at most in their places and the comments before them. -/
structure Agrees (s t : Token) : Prop where
  kind : s.kind = t.kind
  value : s.value = t.value
  lineBreak : s.lineBreak = t.lineBreak
  inserted : s.inserted = t.inserted

theorem Agrees.signs_eq {s t : Token} (h : s.Agrees t) : s.signs = t.signs := by
  simp only [signs, h.kind, h.value, h.lineBreak, h.inserted]

end Token

namespace TokenFeed

def tokenAt (tokens : List Token) (i : Nat) : Token := tokens.getD i (endOf tokens)

end TokenFeed

open TokenFeed Semicolons

/-- Locations of the same token of two lists, or of the semicolon before it. -/
def SamePlace (ss ts : List Token) (l m : Location) : Prop :=
  ∃ place : Place, l = (place.read (tokenAt ss)).location ∧ m = (place.read (tokenAt ts)).location

namespace Pairing

def agreeing (ss ts : List Token) : Pairing :=
  whole (fun s t => s.Agrees t ∧ ∃ i, s = tokenAt ss i ∧ t = tokenAt ts i) (fun _ _ => False)
    fun h => h.1.signs_eq

variable {ss ts : List Token}

theorem Met.samePlace {s t : Token} (h : (agreeing ss ts).Met s t) :
    SamePlace ss ts s.location t.location := by
  cases h with
  | token h =>
    obtain ⟨-, i, rfl, rfl⟩ := h
    exact ⟨.token i, rfl, rfl⟩
  | semicolon h =>
    obtain ⟨-, i, rfl, rfl⟩ := h
    exact ⟨.semicolon i, rfl, rfl⟩

theorem feeds_agreeing (h : List.Forall₂ Token.Agrees ss ts) :
    (agreeing ss ts).Feeds [] (.ofTokens ss) (.ofTokens ts) := by
  obtain ⟨hlength, hagree⟩ := List.forall₂_iff_get.1 h
  have hend : (agreeing ss ts).raw (endOf ss) (endOf ts) := by
    refine ⟨⟨rfl, rfl, rfl, rfl⟩, ss.length, ?_, ?_⟩
    · simp [tokenAt]
    · simp [tokenAt, hlength]
  refine ⟨⟨ss.map .ok, (List.append_nil _).symm, ?_⟩, .inl ⟨rfl, hend⟩⟩
  show List.Forall₂ _ (ss.map Except.ok) (ts.map Except.ok)
  rw [List.forall₂_map_left_iff, List.forall₂_map_right_iff]
  refine List.forall₂_iff_get.2 ⟨hlength, fun i hs ht => ⟨hagree i hs ht, i, ?_, ?_⟩⟩
  · simp [tokenAt, hs]
  · simp [tokenAt, ht]

end Pairing

namespace Script

/-- Lists of tokens that agree in kind, value and flags are read alike. -/
theorem ofTokens_agree {ss ts : List Token} (h : List.Forall₂ Token.Agrees ss ts) :
    (∃ s t, ofTokens ss = .ok s ∧ ofTokens ts = .ok t ∧ Node.alikeAll s.body t.body = true ∧
      List.Forall₂ (fun v w => v.cause = w.cause ∧ SamePlace ss ts v.location w.location)
        s.warnings t.warnings) ∨
    ∃ d e, ofTokens ss = .error d ∧ ofTokens ts = .error e ∧ d.fault.bare = e.fault.bare ∧
      SamePlace ss ts d.location e.location := by
  have hruns := ofFeed_abreast (Pairing.feeds_agreeing h)
  cases ht : ofTokens ts with
  | ok t =>
    rw [show ofFeed (.ofTokens ts) = .ok t from ht] at hruns
    obtain ⟨s, hs, hbody, hwarnings⟩ | ⟨_, hstop⟩ := hruns
    · refine .inl ⟨s, t, hs, rfl, Node.alikeAll_of_bareAll_eq _ _ hbody, hwarnings.imp ?_⟩
      rintro v w ⟨hcause, _, _, hmet, hv, hw⟩
      rw [hv, hw]
      exact ⟨hcause, hmet.samePlace⟩
    · exact hstop.elim
  | error e =>
    rw [show ofFeed (.ofTokens ts) = .error e from ht] at hruns
    obtain ⟨d, hd, hfails⟩ | ⟨_, hstop, -⟩ := hruns
    · refine .inr ⟨d, e, hd, rfl, ?_⟩
      cases hfails with
      | lexical hlexical => exact hlexical.elim
      | here hmet hcause hfirst hsecond =>
        rw [hfirst, hsecond]
        exact ⟨hcause, hmet.samePlace⟩
    · exact hstop.elim

/-- A sum, written close together and with a comment in it. -/
theorem ofTokens_agree_sum :
    let sum (gap : Nat) (comments : List Comment) : List Token :=
      [{ kind := .name, value := "a", location := { span := { length := 1 } } },
       { kind := .operator, value := "+", comments,
         location := { span := { start := gap, length := 1 }, position := { column := gap } } },
       { kind := .name, value := "b",
         location := { span := { start := gap + 1, length := 1 },
                       position := { column := gap + 1 } } }]
    let close := sum 1 []
    let wide := sum 9 [{ kind := .block, text := "more" }]
    ∃ s t, ofTokens close = .ok s ∧ ofTokens wide = .ok t ∧ Node.alikeAll s.body t.body = true ∧
      List.Forall₂ (fun v w => v.cause = w.cause ∧ SamePlace close wide v.location w.location)
        s.warnings t.warnings := by
  intro sum close wide
  have hagree : List.Forall₂ Token.Agrees close wide :=
    .cons ⟨rfl, rfl, rfl, rfl⟩ (.cons ⟨rfl, rfl, rfl, rfl⟩ (.cons ⟨rfl, rfl, rfl, rfl⟩ .nil))
  rcases ofTokens_agree hagree with hread | ⟨d, _, hd, _⟩
  · exact hread
  · have hok : (ofTokens close).isOk = true := by decide +kernel
    rw [hd] at hok
    cases hok

end Script

end ScriptOutline
