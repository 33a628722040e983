/-
Readers of two token sources stay abreast.

Each reader does the same over two sources whose tokens correspond: it gives nodes that
are equal as bare nodes, counts the same functions, and warns of the same things at
corresponding tokens.  Where the second source ends inside what the reader reads, it
either is content with that or fails because of it.

For every reader there are two lemmas, one for runs abreast (`_keeps`) and one for a run
that is over (`_rests`).  A reader that looks past the current token may find the second
source ended there; for what it does then, `Ends` says that the token is passed and the
end met behind it.
-/
import ScriptOutline.Proofs.Pairing
import ScriptOutline.Script.Statement

namespace ScriptOutline

namespace Node

theorem bare_withComments (c : List Comment) (n : Node) : (n.withComments c).bare = n.bare := by
  cases n <;> rfl

theorem bareAll_append (ms ns : List Node) : bareAll (ms ++ ns) = bareAll ms ++ bareAll ns := by
  induction ms with
  | nil => rfl
  | cons m ms ih => rw [List.cons_append, bareAll, bareAll, ih, List.cons_append]

theorem bareAll_eq_of_forall₂ {ms ns : List Node}
    (h : List.Forall₂ (fun m n => m.bare = n.bare) ms ns) : bareAll ms = bareAll ns := by
  induction h with
  | nil => rfl
  | cons hmn _ ih => rw [bareAll, bareAll, hmn, ih]

theorem bareAll_flatten {ms ns : List (List Node)}
    (h : List.Forall₂ (fun m n => bareAll m = bareAll n) ms ns) :
    bareAll ms.flatten = bareAll ns.flatten := by
  induction h with
  | nil => rfl
  | cons hmn _ ih =>
    rw [List.flatten_cons, List.flatten_cons, bareAll_append, bareAll_append, hmn, ih]

end Node

namespace TokenTree

theorem isEmpty_bareAll (ts : List TokenTree) : (bareAll ts).isEmpty = ts.isEmpty := by
  cases ts with
  | nil => rfl
  | cons t ts => rfl

theorem bareAll_append (ss ts : List TokenTree) :
    bareAll (ss ++ ts) = bareAll ss ++ bareAll ts := by
  induction ss with
  | nil => rfl
  | cons s ss ih => rw [List.cons_append, bareAll, bareAll, ih, List.cons_append]

theorem bareAll_flatten {ss ts : List (List TokenTree)}
    (h : List.Forall₂ (fun s t => bareAll s = bareAll t) ss ts) :
    bareAll ss.flatten = bareAll ts.flatten := by
  induction h with
  | nil => rfl
  | cons hst _ ih =>
    rw [List.flatten_cons, List.flatten_cons, bareAll_append, bareAll_append, hst, ih]

end TokenTree

namespace Pairing

/-- Warnings of the same thing at corresponding tokens. -/
def Warned (p : Pairing) (v w : Warning) : Prop :=
  v.cause = w.cause ∧ ∃ s t, p.Met s t ∧ v.location = s.location ∧ w.location = t.location

structure Noted (p : Pairing) (r r' : Reading) : Prop where
  anonymous : r.anonymous = r'.anonymous
  warnings : List.Forall₂ p.Warned r.warnings r'.warnings
  depth : r.depth = r'.depth

def readers (p : Pairing) (more : List (Except LexError Token)) : Tandem ReadError Reading where
  fails := p.Fails
  cut := p.Cut
  abreast r r' := p.Streams more r.stream r'.stream ∧ p.Noted r r'
  spent r := p.Last p.stop r.stream

/-- Readings abreast of which the second stands at `u`. -/
def Standing (p : Pairing) (more : List (Except LexError Token)) (u : Token)
    (r r' : Reading) : Prop :=
  p.Facing more u r.stream r'.stream ∧ p.Noted r r'

/-- Readers that stay abreast if they start where the second stands at `u`. -/
def KeepsAt (p : Pairing) (more : List (Except LexError Token)) (u : Token) {α β : Type}
    (x : Reader α) (y : Reader β) (Q : α → β → Prop) : Prop :=
  (p.readers more).Lockstep (p.Standing more u) x y
    (fun a b r r' => Q a b ∧ (p.readers more).abreast r r') fun _ => (p.readers more).spent

variable {p : Pairing} {more : List (Except LexError Token)} {u : Token} {α β γ δ : Type}

theorem Standing.abreast {r r' : Reading} (h : p.Standing more u r r') :
    (p.readers more).abreast r r' := ⟨h.1.1, h.2⟩

theorem keepsAt_of_keeps {x : Reader α} {y : Reader β} {Q : α → β → Prop}
    (h : (p.readers more).Keeps x y Q) : p.KeepsAt more u x y Q :=
  Tandem.Lockstep.conseq h (fun _ _ => Standing.abreast) (fun _ _ _ _ h => h) fun _ _ h => h

theorem Noted.withStream {r r' : Reading} (h : p.Noted r r') (s t : TokenStream) :
    p.Noted { r with stream := s } { r' with stream := t } := ⟨h.anonymous, h.warnings, h.depth⟩

theorem Noted.deeper {r r' : Reading} (h : p.Noted r r') : p.Noted r.deeper r'.deeper :=
  ⟨h.anonymous, h.warnings, congrArg (· + 1) h.depth⟩

theorem Noted.shallower {r r' : Reading} (h : p.Noted r r') : p.Noted r.shallower r'.shallower :=
  ⟨h.anonymous, h.warnings, congrArg (· - 1) h.depth⟩

end Pairing

namespace Reader

open Pairing

variable {p : Pairing} {more : List (Except LexError Token)} {u : Token} {q : Token → Prop}
  {α β γ δ : Type}

section OnStream

variable {x : Streaming α} {y : Streaming β} {P : TokenStream → TokenStream → Prop}
  {R : TokenStream → Prop} {A : α → β → TokenStream → TokenStream → Prop}
  {Z : β → TokenStream → Prop}

theorem onStream_lockstep (h : (p.tandem more).Lockstep P x y A Z) :
    (p.readers more).Lockstep (fun r r' => P r.stream r'.stream ∧ p.Noted r r') (onStream x)
      (onStream y) (fun a b r r' => A a b r.stream r'.stream ∧ p.Noted r r')
      fun b r => Z b r.stream := by
  intro r r' hr
  have hrun := h r.stream r'.stream hr.1
  unfold onStream
  cases hy : y r'.stream with
  | ok b t =>
    rw [hy] at hrun
    rcases hrun with ⟨a, s, hx, hab⟩ | hend
    · exact .inl ⟨a, { r with stream := s }, by rw [hx], hab, hr.2.withStream s t⟩
    · exact .inr hend
  | error e t =>
    rw [hy] at hrun
    rcases hrun with ⟨d, s, hx, hde⟩ | hcut
    · exact .inl ⟨d, { r with stream := s }, by rw [hx], hde⟩
    · exact .inr hcut

theorem onStream_ends (h : (p.tandem more).Ends R y Z) :
    (p.readers more).Ends (fun r => R r.stream) (onStream y) fun b r => Z b r.stream := by
  intro r hr
  have hrun := h r.stream hr
  unfold onStream
  cases hy : y r.stream with
  | ok b t =>
    rw [hy] at hrun
    exact hrun
  | error e t =>
    rw [hy] at hrun
    exact hrun

theorem onStream_keeps {Q : α → β → Prop} (h : (p.tandem more).Keeps x y Q) :
    (p.readers more).Keeps (onStream x) (onStream y) Q :=
  (onStream_lockstep h).conseq (fun _ _ h => h) (fun _ _ _ _ h => ⟨h.1.1, h.1.2, h.2⟩)
    fun _ _ h => h

@[grind ←] theorem onStream_rests (h : (p.tandem more).Rests y) :
    (p.readers more).Rests (onStream y) :=
  (onStream_ends h).conseq (fun _ h => h) fun _ _ h => h

end OnStream

theorem token_keeps : (p.readers more).Keeps token token p.Met := onStream_keeps Pairing.token_keeps

theorem advance_keeps : (p.readers more).Keeps advance advance p.Met :=
  onStream_keeps Pairing.advance_keeps

theorem expect_keeps (pattern : TokenPattern) :
    (p.readers more).Keeps (expect pattern) (expect pattern) p.Met :=
  onStream_keeps (Pairing.expect_keeps pattern)

theorem group_keeps : (p.readers more).Keeps group group fun a b => a.bare = b.bare :=
  onStream_keeps (groupWithin_keeps _)

theorem gather_keeps {ends : Nat → Token → Bool} (hends : ∀ n t, ends n t = ends n t.signs) :
    (p.readers more).Keeps (gather ends) (gather ends)
      fun as bs => TokenTree.bareAll as = TokenTree.bareAll bs :=
  onStream_keeps (Pairing.gather_keeps (groupWithin_keeps _) (groupWithin_rests _) hends)

@[grind ←] theorem token_rests : (p.readers more).Rests token := onStream_rests Pairing.token_rests

@[grind ←] theorem peek_rests : (p.readers more).Rests peek :=
  onStream_rests (peek_ends.conseq (fun _ h => h) fun _ _ h => h.2)

@[grind ←] theorem advance_rests : (p.readers more).Rests advance :=
  onStream_rests Pairing.advance_rests

@[grind ←] theorem expect_rests (pattern : TokenPattern) :
    (p.readers more).Rests (expect pattern) :=
  onStream_rests (Pairing.expect_rests pattern)

@[grind ←] theorem group_rests : (p.readers more).Rests group :=
  onStream_rests (groupWithin_rests _)

@[grind ←] theorem gather_rests {ends : Nat → Token → Bool} :
    (p.readers more).Rests (gather ends) :=
  onStream_rests (Pairing.gather_rests (groupWithin_rests _))

section Behind

variable {f : Token → Reader α} {g : Token → Reader β} {Q : α → β → Prop}

/-- What comes behind a look at the current token may rely on its being the current one. -/
theorem token_bind_keeps (hf : ∀ a b, p.Met a b → p.KeepsAt more b (f a) (g b) Q)
    (hg : ∀ b, p.stop b → (p.readers more).Rests (g b)) :
    (p.readers more).Keeps (token >>= f) (token >>= g) Q :=
  (onStream_lockstep token_lockstep).bind
    (fun a b r r' h => hf a b h.1.1 r r' ⟨h.1.2, h.2⟩) fun b r h => hg b h.1 r h.2

theorem token_bind_keepsAt (hf : ∀ a, p.Met a u → p.KeepsAt more u (f a) (g u) Q) :
    p.KeepsAt more u (token >>= f) (token >>= g) Q :=
  (onStream_lockstep token_facing).bind
    (fun a _ r r' h => by
      obtain ⟨⟨⟨hab, rfl⟩, hst⟩, hnoted⟩ := h
      exact hf a hab r r' ⟨hst, hnoted⟩)
    fun _ _ h => h.elim

theorem token_bind_rests (h : ∀ b, p.stop b → (p.readers more).Rests (g b)) :
    (p.readers more).Rests (token >>= g) :=
  (onStream_ends token_ends).bind fun b r hr => h b hr.1 r (hr.2.mono fun _ hu => hu ▸ hr.1)

theorem advance_bind_keeps (hf : ∀ a b, p.Met a b → (p.readers more).Keeps (f a) (g b) Q)
    (hg : ∀ b, p.stop b → (p.readers more).Rests (g b)) :
    (p.readers more).Keeps (advance >>= f) (advance >>= g) Q :=
  (onStream_lockstep advance_lockstep).bind
    (fun a b r r' h => hf a b h.1.1 r r' ⟨h.1.2.1, h.2⟩) fun b r h => hg b h.1 r h.2

theorem advance_bind_rests (h : ∀ b, p.stop b → (p.readers more).Rests (g b)) :
    (p.readers more).Rests (advance >>= g) :=
  (onStream_ends advance_ends).bind fun b r hr => h b hr.1 r hr.2

/-- Past the last token there is only the end. -/
theorem advance_bind_ends (h : ∀ b, p.stop b → (p.readers more).Rests (g b)) :
    (p.readers more).Ends (fun r => p.Last q r.stream) (advance >>= g)
      fun _ => (p.readers more).spent :=
  (onStream_ends advance_ends).bind fun b r hr => h b hr.1 r hr.2

end Behind

@[grind ←] theorem endOfInput_rests (h : p.stop u) :
    (p.readers more).Rests (throw (.endOfInput u) : Reader β) :=
  .throw fun _ _ => cut_endOfInput h

@[grind ←] theorem unexpected_rests (h : p.stop u) (pattern : TokenPattern) :
    (p.readers more).Rests (throw (.unexpected pattern u) : Reader β) :=
  .throw fun _ _ => cut_unexpected h pattern

@[grind ←] theorem nestingTooDeep_rests :
    (p.readers more).Rests (throw (.nestingTooDeep u) : Reader β) :=
  .throw fun _ h => h.exists_stop.imp fun _ hu => ⟨hu, .inr rfl⟩

/-! ## Steps common to all readers -/

@[grind ←] theorem expectPunctuation_rests (value : String) :
    (p.readers more).Rests (expectPunctuation value) := expect_rests _

theorem pass_keeps (value : String) :
    (p.readers more).Keeps (pass value) (pass value) fun _ _ => True :=
  (expect_keeps _).bind (fun _ _ _ => advance_keeps.bind (fun _ _ _ => .pure trivial) (by grind))
    (by grind)

@[grind ←] theorem pass_rests (value : String) : (p.readers more).Rests (pass value) := by
  unfold pass
  grind

theorem warn_keeps {a b : Token} (hab : p.Met a b) (cause : WarningCause) :
    (p.readers more).Keeps (warn a cause) (warn b cause) fun _ _ => True := by
  intro r r' h
  have hwarned : p.Warned { cause, location := a.location } { cause, location := b.location } :=
    ⟨rfl, a, b, hab, rfl, rfl⟩
  exact .inl ⟨(), _, rfl, trivial, h.1, h.2.anonymous,
    List.rel_append h.2.warnings (.cons hwarned .nil), h.2.depth⟩

@[grind ←] theorem warn_rests (b : Token) (cause : WarningCause) :
    (p.readers more).Rests (warn b cause) := fun _ h => h

theorem many_keeps {step step' : Reader (Option α)} {Q : α → α → Prop}
    (h : (p.readers more).Keeps step step' (Option.Rel Q)) (hrest : (p.readers more).Rests step') :
    (p.readers more).Keeps (many step) (many step') (List.Forall₂ Q) :=
  .many (fun _ _ _ _ hs ht => remaining_lt_iff hs.1 ht.1) h hrest

@[grind ←] theorem many_rests {step : Reader (Option α)} (h : (p.readers more).Rests step) :
    (p.readers more).Rests (many step) := .many h

theorem tooDeep_keeps {Q : α → α → Prop} : (p.readers more).Keeps tooDeep tooDeep Q :=
  token_keeps.bind (fun _ _ hab => .throw hab.nestingTooDeep) (by grind)

/-- Below the last level it does not matter what the source still has. -/
theorem tooDeep_ends {Z : β → Reading → Prop} :
    (p.readers more).Ends (fun r => p.Last q r.stream) (tooDeep : Reader β) Z :=
  (onStream_ends token_ends).bind fun _ =>
    .throw fun _ h => h.2.exists_stop.imp fun _ hu => ⟨hu, .inr rfl⟩

section Nested

variable {x : Reader α} {y : Reader β} {P : Reading → Reading → Prop} {R : Reading → Prop}
  {A : α → β → Reading → Reading → Prop} {Z : β → Reading → Prop}

/-- What does not depend on the depth of the readings holds one level deeper too. -/
theorem nested_lockstep (hdeep : (p.readers more).Lockstep P tooDeep tooDeep A Z)
    (h : (p.readers more).Lockstep P x y A Z)
    (hP : ∀ r r', P r r' → r.depth = r'.depth ∧ P r.deeper r'.deeper)
    (hA : ∀ a b r r', A a b r r' → A a b r.shallower r'.shallower)
    (hZ : ∀ b r, Z b r → Z b r.shallower) :
    (p.readers more).Lockstep P (nested x) (nested y) A Z := by
  intro r r' hr
  obtain ⟨hdepth, hdeeper⟩ := hP r r' hr
  have hrun := h r.deeper r'.deeper hdeeper
  unfold nested
  rw [hdepth]
  split
  · exact hdeep r r' hr
  cases hy : y r'.deeper with
  | ok b t =>
    rw [hy] at hrun
    rcases hrun with ⟨a, s, hx, hab⟩ | hend
    · exact .inl ⟨a, s.shallower, by rw [hx], hA a b s t hab⟩
    · exact .inr (hZ b t hend)
  | error e t =>
    rw [hy] at hrun
    rcases hrun with ⟨d, s, hx, hde⟩ | hcut
    · exact .inl ⟨d, s.shallower, by rw [hx], hde⟩
    · exact .inr hcut

theorem nested_ends (hdeep : (p.readers more).Ends R tooDeep Z) (h : (p.readers more).Ends R y Z)
    (hR : ∀ r, R r → R r.deeper) (hZ : ∀ b r, Z b r → Z b r.shallower) :
    (p.readers more).Ends R (nested y) Z := by
  intro r hr
  have hrun := h r.deeper (hR r hr)
  unfold nested
  split
  · exact hdeep r hr
  cases hy : y r.deeper with
  | ok b t =>
    rw [hy] at hrun
    exact hZ b t hrun
  | error e t =>
    rw [hy] at hrun
    exact hrun

theorem nested_keeps {Q : α → α → Prop} {x y : Reader α} (h : (p.readers more).Keeps x y Q) :
    (p.readers more).Keeps (nested x) (nested y) Q :=
  nested_lockstep tooDeep_keeps h (fun _ _ hr => ⟨hr.2.depth, hr.1, hr.2.deeper⟩)
    (fun _ _ _ _ hab => ⟨hab.1, hab.2.1, hab.2.2.shallower⟩) fun _ _ hend => hend

theorem nested_keepsAt {Q : α → α → Prop} {x y : Reader α} (h : p.KeepsAt more u x y Q) :
    p.KeepsAt more u (nested x) (nested y) Q :=
  nested_lockstep (keepsAt_of_keeps tooDeep_keeps) h
    (fun _ _ hr => ⟨hr.2.depth, hr.1, hr.2.deeper⟩)
    (fun _ _ _ _ hab => ⟨hab.1, hab.2.1, hab.2.2.shallower⟩) fun _ _ hend => hend

@[grind ←] theorem nested_rests (h : (p.readers more).Rests y) : (p.readers more).Rests (nested y) :=
  nested_ends tooDeep_ends h (fun _ hr => hr) fun _ _ hend => hend

theorem nested_last_ends
    (h : (p.readers more).Ends (fun r => p.Last q r.stream) y fun _ => (p.readers more).spent) :
    (p.readers more).Ends (fun r => p.Last q r.stream) (nested y)
      fun _ => (p.readers more).spent :=
  nested_ends tooDeep_ends h (fun _ hr => hr) fun _ _ hend => hend

end Nested

end Reader

namespace Reader

variable {p : Pairing} {more : List (Except LexError Token)}

/-- Whether the next token passes a test, if that is asked. -/
def looksPast (asks : Bool) (test : Token → Bool) : Reader Bool := do
  if asks then return test (← peek) else return false

theorem isPunctuation_of_isEof {value : String} (t : Token) (h : t.isEof = true) :
    t.isPunctuation value = false := by
  simp only [Token.isEof, beq_iff_eq] at h
  simp [Token.isPunctuation, h]

theorem isKeyword_of_isEof {value : String} (t : Token) (h : t.isEof = true) :
    t.isKeyword value = false := by
  simp only [Token.isEof, beq_iff_eq] at h
  simp [Token.isKeyword, h]

/-- Where the second source ends behind the current token, no test is passed in it. -/
theorem looksPast_lockstep {asks : Bool} {test : Token → Bool} (htest : ∀ t, test t = test t.signs)
    (heof : ∀ t, t.isEof = true → test t = false) (b : Token) :
    (p.readers more).Lockstep (p.Standing more b) (looksPast asks test) (looksPast asks test)
      (fun l l' r r' => l = l' ∧ p.Standing more b r r')
      fun l r => l = false ∧ asks = true ∧ p.Last (· = b) r.stream := by
  refine .ite Iff.rfl (fun hasks => ?_) fun _ => .pure fun _ _ h => ⟨rfl, h⟩
  refine (onStream_lockstep Pairing.peek_lockstep).bind (fun c d => .pure fun r r' h => ?_)
    fun d => .pure fun r h => ?_
  · exact ⟨h.1.1.congr test htest, h.1.2, h.2⟩
  · exact ⟨heof d (p.eof_of_stop h.1), hasks, h.2⟩

@[grind ←] theorem looksPast_rests {asks : Bool} {test : Token → Bool} :
    (p.readers more).Rests (looksPast asks test) := by
  unfold looksPast
  grind

end Reader

namespace Pairing

/-- What the readers one level deeper do once the second source has ended. -/
structure Resting (p : Pairing) (more : List (Except LexError Token)) (inner : Readers) : Prop where
  expression : (p.readers more).Rests inner.expression
  value : (p.readers more).Rests inner.value
  construct : (p.readers more).Rests inner.construct
  lastName : (p.readers more).Ends (fun r => p.Last (fun u => u.kind = .name) r.stream)
    inner.expression fun _ => (p.readers more).spent
  lastBracket : (p.readers more).Ends
    (fun r => p.Last (fun u => u.isPunctuation "(" = true) r.stream)
    inner.value fun _ => (p.readers more).spent

/-- The readers one level deeper stay abreast. -/
structure Paired (p : Pairing) (more : List (Except LexError Token)) (inner : Readers) : Prop where
  resting : p.Resting more inner
  statement (u : Token) : p.KeepsAt more u inner.statement inner.statement
    fun ms ns => Node.bareAll ms = Node.bareAll ns
  expression : (p.readers more).Keeps inner.expression inner.expression fun m n => m.bare = n.bare
  value : (p.readers more).Keeps inner.value inner.value fun m n => m.bare = n.bare
  construct : (p.readers more).Keeps inner.construct inner.construct
    fun ss ts => TokenTree.bareAll ss = TokenTree.bareAll ts

attribute [grind ←] Resting.expression Resting.value Resting.construct

theorem KeepsAt.ite {α β : Type} {p : Pairing} {more : List (Except LexError Token)} {u : Token}
    {x x' : Reader α} {y y' : Reader β} {Q : α → β → Prop} {c d : Prop} [Decidable c] [Decidable d]
    (hcd : c ↔ d) (ht : d → p.KeepsAt more u x y Q) (hf : ¬ d → p.KeepsAt more u x' y' Q) :
    p.KeepsAt more u (if c then x else x') (if d then y else y') Q := Tandem.Lockstep.ite hcd ht hf

end Pairing

/-! ## Constructs -/

namespace Construct

open Reader

variable {p : Pairing} {more : List (Except LexError Token)} {u : Token} {inner : Readers}

theorem isLabel_eq (t : Token) :
    isLabel t = looksPast (t.kind == .name) (·.isPunctuation ":") := rfl

@[grind ←] theorem isLabel_rests (b : Token) : (p.readers more).Rests (isLabel b) := looksPast_rests

theorem leaf_keeps : (p.readers more).Keeps leaf leaf fun a b => a.bare = b.bare :=
  token_keeps.bind (fun _ _ hab => advance_keeps.bind
    (fun _ _ _ => .pure (congrArg TokenTree.leaf hab.bare_eq)) (by grind)) (by grind)

@[grind ←] theorem leaf_rests : (p.readers more).Rests leaf := by
  unfold leaf
  grind

theorem bracketed_keeps (opening : String) :
    (p.readers more).Keeps (bracketed opening) (bracketed opening) fun a b => a.bare = b.bare :=
  (expect_keeps _).bind (fun _ _ _ => group_keeps) (by grind)

@[grind ←] theorem bracketed_rests (opening : String) :
    (p.readers more).Rests (bracketed opening) := by
  unfold bracketed
  grind

theorem single_keeps {x : Reader TokenTree}
    (hx : (p.readers more).Keeps x x fun a b => a.bare = b.bare) :
    (p.readers more).Keeps (do return [← x]) (do return [← x])
      fun as bs => TokenTree.bareAll as = TokenTree.bareAll bs :=
  hx.bind (fun _ _ h => .pure (by simp only [TokenTree.bareAll, h])) (by grind)

theorem semicolon_keeps : (p.readers more).Keeps semicolon semicolon
    fun as bs => TokenTree.bareAll as = TokenTree.bareAll bs := by
  refine token_keeps.bind (fun a b hab => ?_) (by grind)
  refine .ite (hab.test (·.isPunctuation ";") fun _ => rfl) (fun _ => ?_) fun _ => .pure rfl
  refine advance_keeps.bind (fun _ _ _ => .pure ?_) (by grind)
  rw [hab.congr (·.inserted) fun _ => rfl]
  split
  · rfl
  · simp only [TokenTree.bareAll, TokenTree.bare, hab.bare_eq]

@[grind ←] theorem semicolon_rests : (p.readers more).Rests semicolon := by
  unfold semicolon
  grind

theorem rest_keeps : (p.readers more).Keeps rest rest
    fun as bs => TokenTree.bareAll as = TokenTree.bareAll bs := by
  refine (gather_keeps fun _ _ => rfl).bind (fun as bs has => ?_) (by grind)
  refine semicolon_keeps.bind (fun cs ds hcs => .pure ?_) (by grind)
  rw [TokenTree.bareAll_append, TokenTree.bareAll_append, has, hcs]

@[grind ←] theorem rest_rests : (p.readers more).Rests rest := by
  unfold rest
  grind

theorem rest_ends :
    (p.readers more).Ends (fun r => p.Last (fun u => u.kind = .name) r.stream) rest
      fun _ => (p.readers more).spent := by
  have hbehind (trees : List TokenTree) :
      (p.readers more).Rests (do return trees ++ (← semicolon)) := by grind
  refine (onStream_ends (Pairing.gather_ends (Pairing.groupWithin_rests _) fun u hu => ?_)).bind
    hbehind
  simp [Token.isEof, Token.isClosing, Token.isOpening, Token.isPunctuation, hu]

theorem body_keeps (h : p.Paired more inner) : (p.readers more).Keeps (body inner) (body inner)
    fun as bs => TokenTree.bareAll as = TokenTree.bareAll bs := by
  have hrest := h.resting
  refine token_bind_keeps (fun a b hab => ?_) (by grind)
  refine .ite (hab.test (·.isPunctuation "\x7b") fun _ => rfl) (fun _ => ?_) fun _ => ?_
  · exact Pairing.keepsAt_of_keeps (single_keeps group_keeps)
  · rw [isLabel_eq, isLabel_eq, hab.congr (·.kind) fun _ => rfl]
    refine (looksPast_lockstep (fun _ => rfl) isPunctuation_of_isEof b).bind ?_ ?_
    · rintro l _ r r' ⟨rfl, hstand⟩
      refine Pairing.keepsAt_of_keeps (.ite ?_ (fun _ => ?_) fun _ => rest_keeps) r r' hstand
      · rw [hab.congr (·.opensConstruct) fun _ => rfl]
      · refine h.construct.bind (fun as bs has => .pure ?_) (by grind)
        simp only [TokenTree.bareAll, TokenTree.bare, hab.bare_eq, has]
    · rintro _ r ⟨rfl, hasks, hlast⟩
      have hname : b.kind = .name := by simpa using hasks
      have hopens : b.opensConstruct = false := by simp [Token.opensConstruct, hname]
      rw [hopens, Bool.or_self, if_neg Bool.false_ne_true]
      exact rest_ends r (hlast.mono fun u hu => hu ▸ hname)

@[grind ←] theorem body_rests (h : p.Resting more inner) : (p.readers more).Rests (body inner) := by
  unfold body
  grind

theorem catchClause_keeps : (p.readers more).Keeps catchClause catchClause
    (Option.Rel fun as bs => TokenTree.bareAll as = TokenTree.bareAll bs) := by
  refine token_keeps.bind (fun a b hab => ?_) (by grind)
  refine .ite (hab.test (·.isKeyword "catch") fun _ => rfl) (fun _ => ?_) fun _ => .pure .none
  refine leaf_keeps.bind (fun _ _ hword => ?_) (by grind)
  refine (bracketed_keeps _).bind (fun _ _ hparameter => ?_) (by grind)
  refine (bracketed_keeps _).bind (fun _ _ hblock => .pure (.some ?_)) (by grind)
  simp only [TokenTree.bareAll, hword, hparameter, hblock]

@[grind ←] theorem catchClause_rests : (p.readers more).Rests catchClause := by
  unfold catchClause
  grind

theorem optional_keeps {x : Reader (List TokenTree)} (word : String)
    (hx : (p.readers more).Keeps x x fun as bs => TokenTree.bareAll as = TokenTree.bareAll bs)
    (hrest : (p.readers more).Rests x) :
    (p.readers more).Keeps (optional word x) (optional word x)
      fun as bs => TokenTree.bareAll as = TokenTree.bareAll bs := by
  refine token_keeps.bind (fun a b hab => ?_) (by grind)
  refine .ite (hab.test (·.isKeyword word) fun _ => rfl) (fun _ => ?_) fun _ => .pure rfl
  refine leaf_keeps.bind (fun _ _ hword => ?_) (by grind)
  refine hx.bind (fun as bs has => .pure ?_) (by grind)
  simp only [TokenTree.bareAll, hword, has]

@[grind ←] theorem optional_rests {x : Reader (List TokenTree)} (word : String)
    (hrest : (p.readers more).Rests x) : (p.readers more).Rests (optional word x) := by
  unfold optional
  grind

theorem afterKeyword_keeps (h : p.Paired more inner) (keyword : String) :
    (p.readers more).Keeps (afterKeyword inner keyword) (afterKeyword inner keyword)
      fun as bs => TokenTree.bareAll as = TokenTree.bareAll bs := by
  have hrest := h.resting
  have hbody := body_keeps h
  unfold afterKeyword
  split
  case h_1 =>
    refine (bracketed_keeps _).bind (fun _ _ hcondition => ?_) (by grind)
    refine hbody.bind (fun _ _ hconsequence => ?_) (by grind)
    refine (optional_keeps _ hbody (body_rests hrest)).bind (fun _ _ helse => .pure ?_) (by grind)
    simp only [TokenTree.bareAll, TokenTree.bareAll_append, List.cons_append, hcondition,
      hconsequence, helse]
  case h_2 | h_3 | h_4 =>
    refine (bracketed_keeps _).bind (fun _ _ hheader => ?_) (by grind)
    refine hbody.bind (fun _ _ hrepeated => .pure ?_) (by grind)
    simp only [TokenTree.bareAll, hheader, hrepeated]
  case h_5 =>
    refine hbody.bind (fun _ _ hrepeated => ?_) (by grind)
    refine (expect_keeps _).bind (fun _ _ _ => ?_) (by grind)
    refine leaf_keeps.bind (fun _ _ hword => ?_) (by grind)
    refine (bracketed_keeps _).bind (fun _ _ hcondition => ?_) (by grind)
    refine semicolon_keeps.bind (fun _ _ hsemicolon => .pure ?_) (by grind)
    simp only [TokenTree.bareAll, TokenTree.bareAll_append, hrepeated, hword, hcondition,
      hsemicolon]
  case h_6 =>
    refine (bracketed_keeps _).bind (fun _ _ hsubject => ?_) (by grind)
    refine (bracketed_keeps _).bind (fun _ _ hblock => .pure ?_) (by grind)
    simp only [TokenTree.bareAll, hsubject, hblock]
  case h_7 =>
    refine (bracketed_keeps _).bind (fun _ _ htried => ?_) (by grind)
    refine (many_keeps catchClause_keeps (by grind)).bind (fun _ _ hcaught => ?_) (by grind)
    refine (optional_keeps _ (single_keeps (bracketed_keeps _)) (by grind)).bind
      (fun _ _ hlast => .pure ?_) (by grind)
    simp only [TokenTree.bareAll, TokenTree.bareAll_append, List.cons_append, htried,
      TokenTree.bareAll_flatten hcaught, hlast]
  case h_8 | h_9 =>
    refine token_keeps.bind (fun a b hab => ?_) (by grind)
    have hbehind : ∀ {as bs : List TokenTree}, TokenTree.bareAll as = TokenTree.bareAll bs →
        (p.readers more).Keeps (do return as ++ (← semicolon)) (do return bs ++ (← semicolon))
          fun as bs => TokenTree.bareAll as = TokenTree.bareAll bs := by
      intro as bs has
      refine semicolon_keeps.bind (fun _ _ hsemicolon => .pure ?_) (by grind)
      rw [TokenTree.bareAll_append, TokenTree.bareAll_append, has, hsemicolon]
    refine .ite (hab.test (fun t => t.kind == .name && !t.lineBreak) fun _ => rfl) (fun _ => ?_)
      fun _ => hbehind rfl
    exact (single_keeps leaf_keeps).bind (fun _ _ => hbehind) (by grind)
  case h_10 => exact rest_keeps

@[grind ←] theorem afterKeyword_rests (h : p.Resting more inner) (keyword : String) :
    (p.readers more).Rests (afterKeyword inner keyword) := by
  unfold afterKeyword
  grind

theorem read_keeps (h : p.Paired more inner) : (p.readers more).Keeps (read inner) (read inner)
    fun as bs => TokenTree.bareAll as = TokenTree.bareAll bs := by
  have hrest := h.resting
  refine token_keeps.bind (fun a b hab => ?_) (by grind)
  refine advance_keeps.bind (fun _ _ _ => ?_) (by grind)
  refine .ite (hab.test (·.kind == .name) fun _ => rfl) (fun _ => ?_) fun _ => ?_
  · refine (expect_keeps _).bind (fun _ _ hcolon => ?_) (by grind)
    refine advance_keeps.bind (fun _ _ _ => ?_) (by grind)
    refine (body_keeps h).bind (fun as bs has => .pure ?_) (by grind)
    simp only [TokenTree.bareAll, TokenTree.bare, hcolon.bare_eq, has]
  · rw [hab.congr (·.value) fun _ => rfl]
    exact afterKeyword_keeps h _

@[grind ←] theorem read_rests (h : p.Resting more inner) : (p.readers more).Rests (read inner) := by
  unfold read
  grind

theorem node_keeps (h : p.Paired more inner) :
    (p.readers more).Keeps (node inner) (node inner) fun m n => m.bare = n.bare := by
  have hrest := h.resting
  refine token_keeps.bind (fun a b hab => ?_) (by grind)
  refine (read_keeps h).bind (fun as bs has => ?_) (by grind)
  rw [hab.congr (·.value) fun _ => rfl]
  refine (warn_keeps hab _).bind (fun _ _ _ => .pure ?_) (by grind)
  simp only [Node.bare, hab.bare_eq, has]

end Construct

end ScriptOutline
