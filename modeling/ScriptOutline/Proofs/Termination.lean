/-
Reading a script comes to an end.

Three things bound it.  Every round of a loop leaves the loop or passes a token; every guarded
reader passes a token, and calls other guarded readers only one level deeper; and none of them
passes an end of the input.  The readers are written with bounds of their own, the size of
what is left and the number of levels, and these never come to bear.
-/
import ScriptOutline.Proofs.Counter
import ScriptOutline.Proofs.TracedScript

namespace ScriptOutline

namespace Readers

/-- What is repeated until it gives nothing, by the readers on top of `inner`. -/
inductive Repeated (inner : Readers) : {α : Type} → Reader (Option α) → Prop where
  | statement : Repeated inner (Expression.statementRound inner)
  | expression : Repeated inner (Statement.afterComma inner.expression)
  | declarator (word : DeclarationWord) :
    Repeated inner (Statement.afterComma (Statement.declarator inner word []))
  | clause : Repeated inner Construct.catchClause
  | argument : Repeated inner (Expression.argument inner)
  | element : Repeated inner (Expression.element inner)
  | parameter : Repeated inner Expression.parameter
  | link : Repeated inner (Expression.link inner)

/-- The loops of the readers on top of `inner`, each by its round. -/
inductive Loop (inner : Readers) : {α β : Type} → (β → Reader (Option (α × β))) → Prop where
  | repeated {α : Type} {step : Reader (Option α)} (h : Repeated inner step) :
    Loop inner fun _ : Unit => do return (← step).map fun a => (a, ())
  | properties : Loop inner Expression.propertyRound

end Readers

namespace Input

variable {i : Input} {n : Nat} {inner : Readers} {α β : Type}

theorem exists_repeats (h : i.Traced n inner) {step : Reader (Option α)}
    (hs : inner.Repeated step) : ∃ Q, i.Repeats step Q := by
  have hcomma {γ : Type} {item : Reader γ} {l : Nat} {f : γ → List Node}
      (hitem : ∀ x, i.Leads x item fun a y => x.index < y.index ∧ Reads i.met l x (f a) y) :
      ∃ Q, i.Repeats (Statement.afterComma item) Q :=
    ⟨fun _ _ _ => True, Statement.afterComma_repeats hitem (fun _ => trivial)
      fun _ _ _ _ _ _ _ => trivial⟩
  cases hs with
  | statement => exact ⟨_, Expression.statementRound_repeats h⟩
  | expression => exact hcomma h.expression
  | declarator word => exact hcomma (Statement.declarator_leads h word [])
  | clause => exact ⟨_, Construct.catchClause_repeats⟩
  | argument => exact ⟨_, Expression.argument_repeats h⟩
  | element => exact ⟨_, Expression.element_repeats h⟩
  | parameter => exact ⟨_, Expression.parameter_repeats⟩
  | link => exact ⟨_, Expression.link_repeats h⟩

theorem exists_rounds (h : i.Traced n inner) {step : β → Reader (Option (α × β))}
    (hs : inner.Loop step) : ∃ Q, i.Rounds step Q := by
  cases hs with
  | repeated hs =>
    obtain ⟨Q, hrepeats⟩ := exists_repeats h hs
    exact ⟨_, hrepeats.rounds⟩
  | properties => exact ⟨_, Expression.propertyRound_rounds⟩

/-- A script is read to its end or up to a fault, wherever its tokens come from. -/
structure Terminates (i : Input) : Prop where
  /-- A round leaves its loop where it stands, or passes a token. -/
  round (n : Nat) {α β : Type} {step : β → Reader (Option (α × β))} (x : Stage) (b : β) :
    Readers.Loop (.within n) step → i.Leads x (step b) fun o y =>
      match o with
      | none => y = x
      | some _ => x.index < y.index
  /-- A loop does what it would do if nothing bounded it. -/
  loop (n : Nat) {α β : Type} {step : β → Reader (Option (α × β))} (x : Stage) (b : β)
    (r : Reading) : Readers.Loop (.within n) step → i.Here x r →
      Repeat.Loops step b r (Repeat.collect Reading.remaining step b r)
  /-- The same of the loop that collects trees, for whatever ends them. -/
  treeRound (depth : Nat) (ends : Nat → Token → Bool) (k c : Nat) :
    (∀ c t, t.isEof = true → ends c t = true) →
      Runs (TokenStream.Arrived i.feed i.raw k)
        (TokenStream.gatherStep (TokenStream.groupWithin depth) ends c)
        (fun o s => match o with
          | none => TokenStream.Arrived i.feed i.raw k s
          | some _ => ∃ l, k < l ∧ TokenStream.Arrived i.feed i.raw l s)
        (TokenStream.Halted i.feed i.raw)
  treeLoop (depth : Nat) (ends : Nat → Token → Bool) (k c : Nat) (s : TokenStream) :
    (∀ c t, t.isEof = true → ends c t = true) → TokenStream.Arrived i.feed i.raw k s →
      Repeat.Loops (TokenStream.gatherStep (TokenStream.groupWithin depth) ends) c s
        (Repeat.collect TokenStream.remaining
          (TokenStream.gatherStep (TokenStream.groupWithin depth) ends) c s)
  /-- A guarded reader passes a token or fails. -/
  statement (n : Nat) (x : Stage) :
    i.Leads x (Readers.within n).statement fun _ y => x.index < y.index
  expression (n : Nat) (x : Stage) :
    i.Leads x (Readers.within n).expression fun _ y => x.index < y.index
  value (n : Nat) (x : Stage) : i.Leads x (Readers.within n).value fun _ y => x.index < y.index
  construct (n : Nat) (x : Stage) :
    (i.met x.index).kind = .name ∨ (i.met x.index).kind = .keyword →
      i.Leads x (Readers.within n).construct fun _ y => x.index < y.index
  /-- Guarded readers that go on and on, one level deeper each, need no more levels than
  there are: it does not matter how many there would be, nor what would lie below. -/
  level (bottom : Readers) (n : Nat) (r : Reading) : nestingLimit < n → r.depth = 0 →
    Expression.block (.above bottom n) r = Expression.block (.within nestingLimit) r
  /-- A script that was read ends at the first end of the input, and one that was not fails
  at that end or before it. -/
  ends : Meets (fun _ r => ∃ x, i.Here x r ∧ (i.met x.index).isEof = true) i.Stopped
    (Script.read (.ofFeed i.feed))

theorem terminates (i : Input) : i.Terminates where
  round n α β step x b hs := by
    obtain ⟨Q, hrounds⟩ := exists_rounds (i.traced_within n) hs
    refine (hrounds x b).mono ?_
    rintro (_ | ⟨a, c⟩) y ho
    · exact ho.1
    · exact ho.1
  loop n α β step x b r hs hr := by
    obtain ⟨Q, hrounds⟩ := exists_rounds (i.traced_within n) hs
    exact hrounds.rounds.loops (fun _ _ _ _ hxy hs ht => remaining_lt hs ht hxy) hr
  treeRound depth ends k c hends := by
    have hgroup := TokenStream.groupWithin_runs i.offers i.ending depth
    refine (TokenStream.gatherStep_rounds i.offers hgroup hends k c).conseq (fun _ hs => hs) ?_
      fun _ hs => hs
    rintro (_ | ⟨tree, c'⟩) s ho
    · exact ho.arrived
    · obtain ⟨l, hl, hs, -⟩ := ho
      exact ⟨l, hl, hs⟩
  treeLoop depth ends k c s hends hs := by
    have hgroup := TokenStream.groupWithin_runs i.offers i.ending depth
    refine (TokenStream.gatherStep_rounds i.offers hgroup hends).loops ?_ hs
    exact fun x y s t hxy hs ht =>
      TokenStream.remaining_lt_inside i.ending hs.at_ ht.at_ hxy ht.inside
  statement n x := ((i.traced_within n).statement x).mono fun _ _ h => h.1
  expression n x := ((i.traced_within n).expression x).mono fun _ _ h => h.1
  value n x := ((i.traced_within n).value x).mono fun _ _ h => h.1
  construct n x hword := by
    refine ((i.traced_within n).construct x hword).mono ?_
    rintro _ _ ⟨k, rfl, hlt, -⟩
    exact hlt
  level bottom n r hn hr :=
    (Expression.block_same (Readers.above_same bottom (Nat.zero_add nestingLimit) hn)).same r hr
  ends := by
    have hleads := i.script_leads {} _ i.here_ofFeed
    cases hrun : Script.read (.ofFeed i.feed) with
    | ok body r =>
      rw [hrun] at hleads
      obtain ⟨x, hx, -, heof⟩ := hleads
      exact ⟨x, hx, heof⟩
    | error e r =>
      rw [hrun] at hleads
      exact hleads

def ofText [IdentifierTable] (text : String) : Input :=
  ⟨.ofText text, (TokenFeed.ofText text).raw, TokenFeed.offers_raw _, TokenFeed.ending_ofText text⟩

def ofTokens (tokens : List Token) : Input :=
  ⟨.ofTokens tokens, (TokenFeed.ofTokens tokens).raw, TokenFeed.offers_raw _,
    TokenFeed.ending_ofTokens tokens⟩

end Input

/-- Every text and every list of tokens is read to an end. -/
theorem Script.reading_terminates [IdentifierTable] :
    (∀ text : String, (Input.ofText text).Terminates) ∧
      ∀ tokens : List Token, (Input.ofTokens tokens).Terminates :=
  ⟨fun text => (Input.ofText text).terminates, fun tokens => (Input.ofTokens tokens).terminates⟩

end ScriptOutline
