/-
How far a reading has come.

A `Stage` is what a reader can change: the index at which it stands in the tokens that it
meets, the functions without a name that it has counted, and the warnings.  `Leads` is the
triple for readers: started at a stage, a reader that succeeds ends at a stage, and one
that fails has not passed an end of the input.

Each lemma puts one step in front of a reader.  The token that the step gives is the one
that stands there, so no lemma needs to say what a reader has seen.
-/
import ScriptOutline.Proofs.Gives

namespace ScriptOutline

open Semicolons TokenTree

/-- A source of tokens that comes to an end, if all of it is read. -/
structure Input where
  feed : TokenFeed
  raw : Nat → Token
  offers : feed.Offers raw
  ending : feed.Ending raw

structure Stage where
  index : Nat := 0
  anonymous : Nat := 0
  warnings : List Warning := []

namespace Stage

def move (x : Stage) (k : Nat) : Stage := { x with index := k }

def next (x : Stage) : Stage := x.move (x.index + 1)

def warned (x : Stage) (t : Token) (cause : WarningCause) : Stage :=
  { x with warnings := x.warnings ++ [{ cause, location := t.location }] }

def counted (x : Stage) : Stage := { x with anonymous := x.anonymous + 1 }

@[simp] theorem index_move (x : Stage) (k : Nat) : (x.move k).index = k := rfl

@[simp] theorem anonymous_move (x : Stage) (k : Nat) : (x.move k).anonymous = x.anonymous := rfl

@[simp] theorem warnings_move (x : Stage) (k : Nat) : (x.move k).warnings = x.warnings := rfl

@[simp] theorem move_move (x : Stage) (j k : Nat) : (x.move j).move k = x.move k := rfl

@[simp] theorem move_index (x : Stage) : x.move x.index = x := rfl

@[simp] theorem index_next (x : Stage) : x.next.index = x.index + 1 := rfl

@[simp] theorem anonymous_next (x : Stage) : x.next.anonymous = x.anonymous := rfl

@[simp] theorem index_warned (x : Stage) (t : Token) (cause : WarningCause) :
    (x.warned t cause).index = x.index := rfl

@[simp] theorem index_counted (x : Stage) : x.counted.index = x.index := rfl

end Stage

namespace Input

def met (i : Input) (k : Nat) : Token := corrected i.raw k

/-- The reading has come to the stage `x`. -/
structure Here (i : Input) (x : Stage) (r : Reading) : Prop where
  arrived : r.stream.Arrived i.feed i.raw x.index
  anonymous : r.anonymous = x.anonymous
  warnings : r.warnings = x.warnings

/-- The reading has failed, and no end of the input lies behind it. -/
def Stopped (i : Input) (r : Reading) : Prop := r.stream.Halted i.feed i.raw

/-- Started at the stage `x`, the reader comes to a stage with a result of which `Q` holds,
or it fails without having passed an end of the input. -/
def Leads (i : Input) {α : Type} (x : Stage) (m : Reader α) (Q : α → Stage → Prop) : Prop :=
  Runs (i.Here x) m (fun a r => ∃ y, i.Here y r ∧ Q a y) i.Stopped

variable {i : Input} {α β : Type} {x y : Stage} {m : Reader α} {f : α → Reader β}
  {Q Q' : α → Stage → Prop} {G : β → Stage → Prop}

theorem Here.stopped {r : Reading} (h : i.Here x r) : i.Stopped r := h.arrived.halted

theorem Here.stream {r : Reading} (h : i.Here x r) {k : Nat} {s : TokenStream}
    (hs : s.Arrived i.feed i.raw k) : i.Here (x.move k) { r with stream := s } :=
  ⟨hs, h.anonymous, h.warnings⟩

namespace Leads

theorem mono (h : i.Leads x m Q) (hQ : ∀ a y, Q a y → Q' a y) : i.Leads x m Q' :=
  Runs.conseq h (fun _ hr => hr) (fun a _ ⟨y, hy, ha⟩ => ⟨y, hy, hQ a y ha⟩) fun _ hr => hr

theorem pure {a : α} (h : Q a x) : i.Leads x (Pure.pure a) Q := Runs.pure fun _ hr => ⟨x, hr, h⟩

theorem throw {e : ReadError} : i.Leads x (throw e : Reader α) Q := Runs.throw fun _ hr => hr.stopped

theorem bind (hm : i.Leads x m Q) (hf : ∀ a y, Q a y → i.Leads y (f a) G) :
    i.Leads x (m >>= f) G := by
  refine Runs.bind hm fun a r hr => ?_
  obtain ⟨y, hy, ha⟩ := hr
  exact hf a y ha r hy

theorem ite {c : Prop} [Decidable c] {m' : Reader α} (ht : c → i.Leads x m Q)
    (hf : ¬ c → i.Leads x m' Q) : i.Leads x (if c then m else m') Q := Runs.ite ht hf

theorem onStream {n : Streaming α} {P : α → TokenStream → Prop} {k : α → Nat}
    (h : Runs (TokenStream.Arrived i.feed i.raw x.index) n P (TokenStream.Halted i.feed i.raw))
    (hP : ∀ a s, P a s → s.Arrived i.feed i.raw (k a)) :
    i.Leads x (Reader.onStream n) fun a y => y = x.move (k a) ∧ ∃ s, P a s := by
  intro r hr
  have hrun := h r.stream hr.arrived
  rw [Reader.onStream]
  cases hn : n r.stream with
  | ok a s =>
    rw [hn] at hrun
    exact ⟨_, hr.stream (hP a s hrun), rfl, s, hrun⟩
  | error e s =>
    rw [hn] at hrun
    exact hrun

section Token

variable {f : Token → Reader β}

theorem token (hf : i.Leads x (f (i.met x.index)) G) : i.Leads x (Reader.token >>= f) G := by
  refine bind (onStream (TokenStream.token_runs i.offers x.index) fun _ _ h => h.2) ?_
  rintro _ _ ⟨rfl, _, rfl, -⟩
  exact hf

theorem peek (he : (i.met x.index).isEof = false)
    (hf : i.Leads x (f (i.met (x.index + 1))) G) : i.Leads x (Reader.peek >>= f) G := by
  refine bind (onStream (TokenStream.peek_runs i.offers he) fun _ _ h => h.2) ?_
  rintro _ _ ⟨rfl, _, rfl, -⟩
  exact hf

theorem advance (he : (i.met x.index).isEof = false)
    (hf : i.Leads x.next (f (i.met (x.index + 1))) G) : i.Leads x (Reader.advance >>= f) G := by
  refine bind (onStream (TokenStream.advance_runs i.offers he) fun _ _ h => h.2) ?_
  rintro _ _ ⟨rfl, _, rfl, -⟩
  exact hf

theorem expect {p : TokenPattern}
    (hf : p.accepts (i.met x.index) = true → i.Leads x (f (i.met x.index)) G) :
    i.Leads x (Reader.expect p >>= f) G := by
  refine bind (onStream (TokenStream.expect_runs i.offers p x.index) fun _ _ h => h.2) ?_
  rintro _ _ ⟨rfl, _, ⟨rfl, haccepts⟩, -⟩
  exact hf haccepts

end Token

/-- No end of the input is a punctuation mark. -/
theorem pass {f : Unit → Reader β} {value : String}
    (hf : (i.met x.index).isPunctuation value = true → i.Leads x.next (f ()) G) :
    i.Leads x (Reader.pass value >>= f) G := by
  refine bind (Q := fun _ y => y = x.next ∧ (i.met x.index).isPunctuation value = true) ?_ ?_
  · exact expect fun h => advance (TokenStream.isEof_of_accepts h) (pure ⟨rfl, h⟩)
  · rintro _ _ ⟨rfl, h⟩
    exact hf h

theorem warn {f : Unit → Reader β} {t : ScriptOutline.Token} {cause : WarningCause}
    (hf : i.Leads (x.warned t cause) (f ()) G) : i.Leads x (Reader.warn t cause >>= f) G := by
  intro r hr
  refine hf { r with warnings := r.warnings ++ [{ cause, location := t.location }] } ?_
  exact ⟨hr.arrived, hr.anonymous, congrArg (· ++ _) hr.warnings⟩

theorem group : i.Leads x Reader.group fun tree y => y = x.move (x.index + tree.tokens.length) ∧
    ∃ s, TokenStream.GroupAt i.feed i.raw x.index nestingLimit tree s :=
  onStream (TokenStream.groupWithin_runs i.offers i.ending nestingLimit x.index)
    fun _ _ h => h.arrived

theorem gather {ends : Nat → ScriptOutline.Token → Bool}
    (hends : ∀ n t, t.isEof = true → ends n t = true) :
    i.Leads x (Reader.gather ends) fun trees y =>
      y = x.move (x.index + (tokensOf trees).length) ∧
        ∃ s, TokenStream.TreesAt i.feed i.raw nestingLimit ends x.index 0 trees s :=
  onStream (TokenStream.gather_runs i.offers i.ending
    (TokenStream.groupWithin_runs i.offers i.ending nestingLimit) hends x.index)
    fun _ _ h => h.arrived

theorem looksPast {f : Bool → Reader β} {asks : Bool} {test : ScriptOutline.Token → Bool}
    (he : asks = true → (i.met x.index).isEof = false)
    (hf : i.Leads x (f (asks && test (i.met (x.index + 1)))) G) :
    i.Leads x (Reader.looksPast asks test >>= f) G := by
  refine bind (Q := fun b y => y = x ∧ b = (asks && test (i.met (x.index + 1)))) ?_ ?_
  · refine ite (fun hasks => peek (he hasks) (pure ⟨rfl, ?_⟩)) fun hasks => pure ⟨rfl, ?_⟩
    · rw [hasks, Bool.true_and]
    · rw [Bool.not_eq_true] at hasks
      rw [hasks, Bool.false_and]
  · rintro _ _ ⟨rfl, rfl⟩
    exact hf

theorem tooDeep : i.Leads x (Reader.tooDeep : Reader α) Q := token throw

/-- One level deeper a reader is at the same stage. -/
theorem nested (h : i.Leads x m Q) : i.Leads x (Reader.nested m) Q := by
  intro r hr
  have hrun := h r.deeper ⟨hr.arrived, hr.anonymous, hr.warnings⟩
  unfold Reader.nested
  split
  · exact tooDeep r hr
  cases hm : m r.deeper with
  | ok a s =>
    rw [hm] at hrun
    obtain ⟨y, hy, ha⟩ := hrun
    exact ⟨y, ⟨hy.arrived, hy.anonymous, hy.warnings⟩, ha⟩
  | error e s =>
    rw [hm] at hrun
    exact hrun

end Leads

theorem remaining_lt {r s : Reading} (hr : i.Here x r) (hs : i.Here y s)
    (hxy : x.index < y.index) : s.remaining < r.remaining :=
  TokenStream.remaining_lt_inside i.ending hr.arrived.at_ hs.arrived.at_ hxy hs.arrived.inside

/-- Each round of a repeated reader stops where it stands, with nothing read, or passes a
token.  What `Q` says of the rounds behind one it says of that round and them. -/
def Rounds (i : Input) (step : β → Reader (Option (α × β)))
    (Q : Stage → β → List α → Stage → Prop) : Prop :=
  ∀ x b, i.Leads x (step b) fun o y => match o with
    | none => y = x ∧ Q x b [] x
    | some (a, c) => x.index < y.index ∧ ∀ as z, Q y c as z → Q x b (a :: as) z

theorem Rounds.rounds {step : β → Reader (Option (α × β))} {Q : Stage → β → List α → Stage → Prop}
    (h : i.Rounds step Q) :
    Repeat.Rounds (fun x y : Stage => x.index < y.index) i.Here step
      (fun x b as r => ∃ y, i.Here y r ∧ Q x b as y) i.Stopped := by
  intro x b
  refine Runs.conseq (h x b) (fun _ hr => hr) ?_ fun _ hr => hr
  rintro o r ⟨y, hy, ho⟩
  cases o with
  | none =>
    obtain ⟨rfl, hnone⟩ := ho
    exact ⟨y, hy, hnone⟩
  | some u =>
    obtain ⟨hlt, hmore⟩ := ho
    refine ⟨y, hlt, hy, ?_⟩
    rintro as t ⟨z, hz, has⟩
    exact ⟨z, hz, hmore as z has⟩

theorem Rounds.collect {step : β → Reader (Option (α × β))}
    {Q : Stage → β → List α → Stage → Prop} (h : i.Rounds step Q) (x : Stage) (b : β) :
    i.Leads x (Repeat.collect Reading.remaining step b) (Q x b) :=
  h.rounds.collect (fun _ _ _ _ hxy hs ht => remaining_lt hs ht hxy) x b

/-- The rounds of a reader that is repeated as it is. -/
def Repeats (i : Input) (step : Reader (Option α)) (Q : Stage → List α → Stage → Prop) : Prop :=
  ∀ x, i.Leads x step fun o y => match o with
    | none => y = x ∧ Q x [] x
    | some a => x.index < y.index ∧ ∀ as z, Q y as z → Q x (a :: as) z

theorem Repeats.rounds {step : Reader (Option α)} {Q : Stage → List α → Stage → Prop}
    (h : i.Repeats step Q) :
    i.Rounds (fun _ : Unit => do return (← step).map fun a => (a, ())) fun x _ => Q x := by
  intro x _
  refine Leads.bind (h x) fun o y ho => .pure ?_
  cases o with
  | none => exact ho
  | some a => exact ho

theorem Repeats.many {step : Reader (Option α)} {Q : Stage → List α → Stage → Prop}
    (h : i.Repeats step Q) (x : Stage) : i.Leads x (Reader.many step) (Q x) := h.rounds.collect x ()

end Input

end ScriptOutline
