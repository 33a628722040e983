/-
Running a stateful computation step by step.

A computation is a function of its state, so each step has an equation that
says what it makes of a state.  `bind_eq_ok` goes the other way: a sequence
that succeeds is a first step that succeeds and a rest that does.  A repetition
that succeeds is a list of steps, `Collected`.

`Runs` is a triple for both outcomes.  For a repetition it rests on `Rounds`: where
each round gets on or leaves, the repetition does what a loop does that nothing bounds,
`Loops`.
-/
import ScriptOutline.Repeat

namespace ScriptOutline

variable {ε σ α β : Type}

@[simp] theorem pure_run (a : α) (s : σ) : (pure a : EStateM ε σ α) s = .ok a s := rfl

@[simp] theorem get_run (s : σ) : (get : EStateM ε σ σ) s = .ok s s := rfl

@[simp] theorem set_run (t s : σ) : (set t : EStateM ε σ PUnit) s = .ok ⟨⟩ t := rfl

@[simp] theorem modify_run (f : σ → σ) (s : σ) :
    (modify f : EStateM ε σ PUnit) s = .ok ⟨⟩ (f s) := rfl

@[simp] theorem throw_run (e : ε) (s : σ) : (throw e : EStateM ε σ α) s = .error e s := rfl

theorem bind_run (x : EStateM ε σ α) (f : α → EStateM ε σ β) (s : σ) :
    (x >>= f) s = match x s with
      | .ok a s' => f a s'
      | .error e s' => .error e s' := rfl

theorem bind_run_ok {x : EStateM ε σ α} {s s' : σ} {a : α} (h : x s = .ok a s')
    (f : α → EStateM ε σ β) : (x >>= f) s = f a s' := by
  rw [bind_run, h]

theorem bind_eq_ok {x : EStateM ε σ α} {f : α → EStateM ε σ β} {s t : σ} {b : β} :
    (x >>= f) s = .ok b t ↔ ∃ a s', x s = .ok a s' ∧ f a s' = .ok b t := by
  rw [bind_run]
  cases h : x s with
  | ok a s' =>
    constructor
    · intro hf
      exact ⟨a, s', rfl, hf⟩
    · rintro ⟨_, _, ha, hf⟩
      cases ha
      exact hf
  | error e s' => simp

theorem bind_eq_error {x : EStateM ε σ α} {f : α → EStateM ε σ β} {s t : σ} {e : ε} :
    (x >>= f) s = .error e t ↔
      x s = .error e t ∨ ∃ a s', x s = .ok a s' ∧ f a s' = .error e t := by
  rw [bind_run]
  cases h : x s with
  | ok a s' =>
    constructor
    · intro hf
      exact .inr ⟨a, s', rfl, hf⟩
    · rintro (he | ⟨_, _, ha, hf⟩)
      · cases he
      · cases ha
        exact hf
  | error d s' => simp

/-- `Q` holds of a result and its state, `E` of the state behind a failure. -/
def Meets (Q : α → σ → Prop) (E : σ → Prop) : EStateM.Result ε σ α → Prop
  | .ok a s => Q a s
  | .error _ s => E s

/-- From a state of which `P` holds, `x` ends with a result and in a state of which `Q`
holds, or fails in a state of which `E` holds. -/
def Runs (P : σ → Prop) (x : EStateM ε σ α) (Q : α → σ → Prop) (E : σ → Prop) : Prop :=
  ∀ s, P s → Meets Q E (x s)

section Runs

variable {P P' : σ → Prop} {x : EStateM ε σ α} {f : α → EStateM ε σ β} {Q Q' : α → σ → Prop}
  {G : β → σ → Prop} {E E' : σ → Prop}

theorem Runs.conseq (h : Runs P x Q E) (hP : ∀ s, P' s → P s) (hQ : ∀ a s, Q a s → Q' a s)
    (hE : ∀ s, E s → E' s) : Runs P' x Q' E' := by
  intro s hs
  have hrun := h s (hP s hs)
  cases hx : x s with
  | ok a s' =>
    rw [hx] at hrun
    exact hQ a s' hrun
  | error e s' =>
    rw [hx] at hrun
    exact hE s' hrun

theorem Runs.pure {a : α} (h : ∀ s, P s → Q a s) : Runs P (pure a : EStateM ε σ α) Q E := h

theorem Runs.throw {e : ε} (h : ∀ s, P s → E s) : Runs P (throw e : EStateM ε σ α) Q E := h

theorem Runs.bind (hx : Runs P x Q E) (hf : ∀ a, Runs (Q a) (f a) G E) : Runs P (x >>= f) G E := by
  intro s hs
  have hrun := hx s hs
  rw [bind_run]
  cases h : x s with
  | ok a s' =>
    rw [h] at hrun
    exact hf a s' hrun
  | error e s' =>
    rw [h] at hrun
    exact hrun

theorem Runs.ite {c : Prop} [Decidable c] {y : EStateM ε σ α} (ht : c → Runs P x Q E)
    (hf : ¬ c → Runs P y Q E) : Runs P (if c then x else y) Q E := by
  split
  · exact ht ‹c›
  · exact hf ‹¬ c›

/-- What is known beside the state is known before the run. -/
theorem Runs.assume {c : Prop} (h : c → Runs P x Q E) : Runs (fun s => c ∧ P s) x Q E :=
  fun s hs => h hs.1 s hs.2

end Runs

/-! ## Repetition -/

namespace Repeat

/-- The rounds of a loop that nothing bounds, with its outcome. -/
inductive Loops (step : β → EStateM ε σ (Option (α × β))) :
    β → σ → EStateM.Result ε σ (List α) → Prop where
  | leaves {b : β} {s s' : σ} (last : step b s = .ok none s') : Loops step b s (.ok [] s')
  | fails {b : β} {s s' : σ} {e : ε} (fault : step b s = .error e s') :
    Loops step b s (.error e s')
  | more {b b' : β} {s s₁ s' : σ} {a : α} {as : List α}
    (round : step b s = .ok (some (a, b')) s₁) (rest : Loops step b' s₁ (.ok as s')) :
    Loops step b s (.ok (a :: as) s')
  | failsLater {b b' : β} {s s₁ s' : σ} {a : α} {e : ε}
    (round : step b s = .ok (some (a, b')) s₁) (rest : Loops step b' s₁ (.error e s')) :
    Loops step b s (.error e s')

/-- Each round leaves the loop or gets on, as `R` says, between points of which `P` holds.
What `Q` says of the rounds behind one it says of that round and them. -/
def Rounds {γ : Type} (R : γ → γ → Prop) (P : γ → σ → Prop)
    (step : β → EStateM ε σ (Option (α × β))) (Q : γ → β → List α → σ → Prop) (E : σ → Prop) :
    Prop :=
  ∀ x b, Runs (P x) (step b) (fun o s => match o with
    | none => Q x b [] s
    | some (a, c) => ∃ y, R x y ∧ P y s ∧ ∀ as t, Q y c as t → Q x b (a :: as) t) E

section Rounds

variable {γ : Type} {R : γ → γ → Prop} {P : γ → σ → Prop} {size : σ → Nat}
  {step : β → EStateM ε σ (Option (α × β))} {Q : γ → β → List α → σ → Prop} {E : σ → Prop}

/-- A repetition whose rounds get on ends as the loop does. -/
theorem Rounds.loops (h : Rounds R P step Q E)
    (hsize : ∀ x y s t, R x y → P x s → P y t → size t < size s)
    {x : γ} {b : β} {s : σ} (hs : P x s) : Loops step b s (collect size step b s) := by
  fun_induction Repeat.collect size step b s generalizing x with
  | case1 b s e s₁ hstep => exact .fails hstep
  | case2 b s s₁ hstep => exact .leaves hstep
  | case3 b s a c s₁ hstep hless as s₂ hrest ih =>
    have hround := h x b s hs
    rw [hstep] at hround
    obtain ⟨y, -, hy, -⟩ := hround
    rw [hrest] at ih
    exact .more hstep (ih hy)
  | case4 b s a c s₁ hstep hless e s₂ hrest ih =>
    have hround := h x b s hs
    rw [hstep] at hround
    obtain ⟨y, -, hy, -⟩ := hround
    rw [hrest] at ih
    exact .failsLater hstep (ih hy)
  | case5 b s a c s₁ hstep hless =>
    have hround := h x b s hs
    rw [hstep] at hround
    obtain ⟨y, hxy, hy, -⟩ := hround
    exact absurd (hsize x y s s₁ hxy hs hy) hless

theorem Loops.outcome (h : Rounds R P step Q E) {b : β} {s : σ} {o : EStateM.Result ε σ (List α)}
    (hl : Loops step b s o) {x : γ} (hs : P x s) : Meets (Q x b) E o := by
  induction hl generalizing x with
  | @leaves b s s' last =>
    have hround := h x b s hs
    rw [last] at hround
    exact hround
  | @fails b s s' e fault =>
    have hround := h x b s hs
    rw [fault] at hround
    exact hround
  | @more b c s s₁ s' a as round _ ih =>
    have hround := h x b s hs
    rw [round] at hround
    obtain ⟨y, -, hy, hmore⟩ := hround
    exact hmore as s' (ih hy)
  | @failsLater b c s s₁ s' a e round _ ih =>
    have hround := h x b s hs
    rw [round] at hround
    obtain ⟨y, -, hy, -⟩ := hround
    have hrest := ih hy
    exact hrest

theorem Rounds.collect (h : Rounds R P step Q E)
    (hsize : ∀ x y s t, R x y → P x s → P y t → size t < size s) (x : γ) (b : β) :
    Runs (P x) (Repeat.collect size step b) (Q x b) E := by
  intro s hs
  exact Loops.outcome h (h.loops hsize hs) hs

end Rounds

/-- Where the steps of two repetitions do the same and keep a property of the state, the
repetitions do. -/
theorem collect_congr {P : σ → Prop} {size : σ → Nat}
    {step step' : β → EStateM ε σ (Option (α × β))} (hsame : ∀ b s, P s → step b s = step' b s)
    (hkeeps : ∀ b, Runs P (step b) (fun _ => P) P) (b : β) {s : σ} (hs : P s) :
    collect size step b s = collect size step' b s ∧
      Meets (fun _ => P) P (collect size step b s) := by
  fun_induction Repeat.collect size step b s with
  | case1 b s e s₁ hstep =>
    have hrun := hkeeps b s hs
    rw [Repeat.collect, ← hsame b s hs]
    rw [hstep] at hrun ⊢
    refine ⟨?_, hrun⟩
    rfl
  | case2 b s s₁ hstep =>
    have hrun := hkeeps b s hs
    rw [Repeat.collect, ← hsame b s hs]
    rw [hstep] at hrun ⊢
    refine ⟨?_, hrun⟩
    rfl
  | case3 b s a c s₁ hstep hless as s₂ hrest ih =>
    have hrun := hkeeps b s hs
    rw [Repeat.collect, ← hsame b s hs]
    rw [hstep] at hrun ⊢
    obtain ⟨hagain, hend⟩ := ih hrun
    rw [hrest] at hagain hend
    simp only [hless, if_true, ← hagain]
    exact ⟨trivial, hend⟩
  | case4 b s a c s₁ hstep hless e s₂ hrest ih =>
    have hrun := hkeeps b s hs
    rw [Repeat.collect, ← hsame b s hs]
    rw [hstep] at hrun ⊢
    obtain ⟨hagain, hend⟩ := ih hrun
    rw [hrest] at hagain hend
    simp only [hless, if_true, ← hagain]
    exact ⟨trivial, hend⟩
  | case5 b s a c s₁ hstep hless =>
    have hrun := hkeeps b s hs
    rw [Repeat.collect, ← hsame b s hs]
    rw [hstep] at hrun ⊢
    simp only [hless, if_false]
    exact ⟨trivial, hrun⟩

/-- The steps of a repetition, with what they collect. -/
inductive Collected (size : σ → Nat) (step : β → EStateM ε σ (Option (α × β))) :
    β → σ → List α → σ → Prop where
  | done {b : β} {s s' : σ} (last : step b s = .ok none s') : Collected size step b s [] s'
  | more {b b' : β} {s s₁ s' : σ} {a : α} {as : List α}
      (first : step b s = .ok (some (a, b')) s₁) (less : size s₁ < size s)
      (rest : Collected size step b' s₁ as s') : Collected size step b s (a :: as) s'
  | stuck {b b' : β} {s s' : σ} {a : α} (first : step b s = .ok (some (a, b')) s')
      (noLess : ¬ size s' < size s) : Collected size step b s [a] s'

variable {size : σ → Nat} {step : β → EStateM ε σ (Option (α × β))} {b : β} {s s' : σ}
  {as : List α}

theorem collected_of_collect (h : collect size step b s = .ok as s') :
    Collected size step b s as s' := by
  fun_induction Repeat.collect size step b s generalizing as s' with
  | case1 b s e s₁ hstep => cases h
  | case2 b s s₁ hstep =>
    cases h
    exact .done hstep
  | case3 b s a b' s₁ hstep hless as₁ s₂ hrest ih =>
    cases h
    exact .more hstep hless (ih hrest)
  | case4 b s a b' s₁ hstep hless e s₂ hrest => cases h
  | case5 b s a b' s₁ hstep hless =>
    cases h
    exact .stuck hstep hless

end Repeat

end ScriptOutline
