/-
Two runs of a computation, side by side.

The second run may come to the end of its input while the first still has some.  Until
then both do the same, and from then on only the second one counts.  `Lockstep` is a
triple for two computations.  If they start in states of which `P` holds, they end with
results and states of which `A` holds, unless the second run has come to its end, and
then `Z` holds of its result and state.  `Ends` is the triple for a run that is at its
end or about to be.

Both are closed under the ways in which computations are put together, so what holds of
the operations of a stream holds of every reader made of them.
-/
import Mathlib.Data.List.Forall2
import ScriptOutline.Proofs.Run

namespace ScriptOutline

/-- How two runs compare: their failures, and their states. -/
structure Tandem (ε σ : Type) where
  /-- Both runs fail alike. -/
  fails : ε → ε → Prop
  /-- The second run fails because its input ends. -/
  cut : ε → Prop
  /-- Neither run is ahead. -/
  abreast : σ → σ → Prop
  /-- The second run has read all of its input. -/
  spent : σ → Prop

namespace Tandem

variable {ε σ α β γ δ : Type} {T : Tandem ε σ}

def Outcome (T : Tandem ε σ) (A : α → β → σ → σ → Prop) (Z : β → σ → Prop)
    (x : EStateM.Result ε σ α) : EStateM.Result ε σ β → Prop
  | .ok b t => (∃ a s, x = .ok a s ∧ A a b s t) ∨ Z b t
  | .error e _ => (∃ d s, x = .error d s ∧ T.fails d e) ∨ T.cut e

def Ended (T : Tandem ε σ) (Z : β → σ → Prop) : EStateM.Result ε σ β → Prop
  | .ok b t => Z b t
  | .error e _ => T.cut e

def Lockstep (T : Tandem ε σ) (P : σ → σ → Prop) (x : EStateM ε σ α) (y : EStateM ε σ β)
    (A : α → β → σ → σ → Prop) (Z : β → σ → Prop) : Prop :=
  ∀ s t, P s t → T.Outcome A Z (x s) (y t)

def Ends (T : Tandem ε σ) (R : σ → Prop) (y : EStateM ε σ β) (Z : β → σ → Prop) : Prop :=
  ∀ t, R t → T.Ended Z (y t)

variable {P P' : σ → σ → Prop} {R R' : σ → Prop} {x : EStateM ε σ α} {y : EStateM ε σ β}
  {A A' : α → β → σ → σ → Prop} {Z Z' : β → σ → Prop}
  {f : α → EStateM ε σ γ} {g : β → EStateM ε σ δ} {B : γ → δ → σ → σ → Prop} {Y : δ → σ → Prop}

theorem Ended.outcome {X : EStateM.Result ε σ α} {V : EStateM.Result ε σ β} (h : T.Ended Z V) :
    T.Outcome A Z X V := by
  cases V with
  | ok b t => exact .inr h
  | error e t => exact .inr h

theorem Ends.assume {c : Prop} (h : c → T.Ends R y Z) : T.Ends (fun t => c ∧ R t) y Z :=
  fun t ht => h ht.1 t ht.2

theorem Lockstep.conseq (h : T.Lockstep P x y A Z) (hP : ∀ s t, P' s t → P s t)
    (hA : ∀ a b s t, A a b s t → A' a b s t) (hZ : ∀ b t, Z b t → Z' b t) :
    T.Lockstep P' x y A' Z' := by
  intro s t hst
  have hrun := h s t (hP s t hst)
  cases hy : y t with
  | ok b t' =>
    rw [hy] at hrun
    rcases hrun with ⟨a, s', hx, hab⟩ | hend
    · exact .inl ⟨a, s', hx, hA a b s' t' hab⟩
    · exact .inr (hZ b t' hend)
  | error e t' =>
    rw [hy] at hrun
    exact hrun

theorem Ends.conseq (h : T.Ends R y Z) (hR : ∀ t, R' t → R t) (hZ : ∀ b t, Z b t → Z' b t) :
    T.Ends R' y Z' := by
  intro t ht
  have hrun := h t (hR t ht)
  cases hy : y t with
  | ok b t' =>
    rw [hy] at hrun
    exact hZ b t' hrun
  | error e t' =>
    rw [hy] at hrun
    exact hrun

theorem Lockstep.bind (hx : T.Lockstep P x y A Z)
    (hf : ∀ a b, T.Lockstep (A a b) (f a) (g b) B Y) (hg : ∀ b, T.Ends (Z b) (g b) Y) :
    T.Lockstep P (x >>= f) (y >>= g) B Y := by
  intro s t hst
  have hrun := hx s t hst
  rw [bind_run, bind_run]
  cases hy : y t with
  | ok b t' =>
    rw [hy] at hrun
    rcases hrun with ⟨a, s', hx, hab⟩ | hend
    · rw [hx]
      exact hf a b s' t' hab
    · exact (hg b t' hend).outcome
  | error e t' =>
    rw [hy] at hrun
    rcases hrun with ⟨d, s', hx, hde⟩ | hcut
    · exact .inl ⟨d, s', by rw [hx], hde⟩
    · exact .inr hcut

theorem Ends.bind (hy : T.Ends R y Z) (hg : ∀ b, T.Ends (Z b) (g b) Y) : T.Ends R (y >>= g) Y := by
  intro t ht
  have hrun := hy t ht
  rw [bind_run]
  cases h : y t with
  | ok b t' =>
    rw [h] at hrun
    exact hg b t' hrun
  | error e t' =>
    rw [h] at hrun
    exact hrun

theorem Lockstep.pure {a : α} {b : β} (h : ∀ s t, P s t → A a b s t) :
    T.Lockstep P (pure a) (pure b) A Z :=
  fun s t hst => .inl ⟨a, s, rfl, h s t hst⟩

theorem Ends.pure {b : β} (h : ∀ t, R t → Z b t) : T.Ends R (pure b) Z := h

theorem Lockstep.throw {d e : ε} (h : T.fails d e) :
    T.Lockstep P (throw d : EStateM ε σ α) (throw e : EStateM ε σ β) A Z :=
  fun s _ _ => .inl ⟨d, s, rfl, h⟩

theorem Lockstep.ite {c d : Prop} [Decidable c] [Decidable d] {x' : EStateM ε σ α}
    {y' : EStateM ε σ β} (hcd : c ↔ d) (ht : d → T.Lockstep P x y A Z)
    (hf : ¬ d → T.Lockstep P x' y' A Z) :
    T.Lockstep P (if c then x else x') (if d then y else y') A Z := by
  by_cases hd : d
  · rw [if_pos (hcd.2 hd), if_pos hd]
    exact ht hd
  · rw [if_neg (mt hcd.1 hd), if_neg hd]
    exact hf hd

theorem Ends.throw {e : ε} (h : ∀ t, R t → T.cut e) : T.Ends R (throw e : EStateM ε σ β) Z := h

/-- Runs that start abreast stay so until the second one is over. -/
def Keeps (T : Tandem ε σ) (x : EStateM ε σ α) (y : EStateM ε σ β) (Q : α → β → Prop) : Prop :=
  T.Lockstep T.abreast x y (fun a b s t => Q a b ∧ T.abreast s t) fun _ => T.spent

def Rests (T : Tandem ε σ) (y : EStateM ε σ β) : Prop := T.Ends T.spent y fun _ => T.spent

variable {Q Q' : α → β → Prop} {G : γ → δ → Prop}

theorem Keeps.mono (h : T.Keeps x y Q) (hQ : ∀ a b, Q a b → Q' a b) : T.Keeps x y Q' :=
  Lockstep.conseq h (fun _ _ hst => hst) (fun a b _ _ hab => ⟨hQ a b hab.1, hab.2⟩) fun _ _ ht => ht

theorem Keeps.bind (hx : T.Keeps x y Q) (hf : ∀ a b, Q a b → T.Keeps (f a) (g b) G)
    (hg : ∀ b, T.Rests (g b)) : T.Keeps (x >>= f) (y >>= g) G :=
  Lockstep.bind hx (fun a b s t hst => hf a b hst.1 s t hst.2) hg

@[grind ←] theorem Rests.bind (hy : T.Rests y) (hg : ∀ b, T.Rests (g b)) : T.Rests (y >>= g) :=
  Ends.bind hy hg

theorem Keeps.pure {a : α} {b : β} (h : Q a b) : T.Keeps (pure a) (pure b) Q :=
  Lockstep.pure fun _ _ hst => ⟨h, hst⟩

@[grind ←] theorem Rests.pure (b : β) : T.Rests (pure b) := Ends.pure fun _ ht => ht

theorem Keeps.ite {c d : Prop} [Decidable c] [Decidable d] {x' : EStateM ε σ α}
    {y' : EStateM ε σ β} (hcd : c ↔ d) (ht : d → T.Keeps x y Q) (hf : ¬ d → T.Keeps x' y' Q) :
    T.Keeps (if c then x else x') (if d then y else y') Q := Lockstep.ite hcd ht hf

section Repetition

variable {size : σ → Nat} {step : γ → EStateM ε σ (Option (α × γ))}
  {step' : δ → EStateM ε σ (Option (β × δ))}

theorem Ends.collect (hrest : ∀ d, T.Rests (step' d)) {d : δ}
    (hfirst : T.Ends R' (step' d) fun _ => T.spent) :
    T.Ends R' (Repeat.collect size step' d) fun _ => T.spent := by
  intro t ht
  have hround := hfirst t ht
  clear hfirst ht
  fun_induction Repeat.collect size step' d t with
  | case1 d t e t' hstep =>
    rw [hstep] at hround
    exact hround
  | case2 d t t' hstep =>
    rw [hstep] at hround
    exact hround
  | case3 d t b d' t' hstep hless bs t'' hmore ih =>
    rw [hstep] at hround
    rw [hmore] at ih
    exact ih (hrest d' t' hround)
  | case4 d t b d' t' hstep hless e t'' hmore ih =>
    rw [hstep] at hround
    rw [hmore] at ih
    exact ih (hrest d' t' hround)
  | case5 d t b d' t' hstep hless =>
    rw [hstep] at hround
    exact hround

@[grind ←] theorem Rests.collect (h : ∀ d, T.Rests (step' d)) (d : δ) :
    T.Rests (Repeat.collect size step' d) := Ends.collect h (h d)

/-- A repetition keeps step if each round does and both runs have the same progress to
show for it. -/
theorem Keeps.collect
    (hsize : ∀ s t s' t', T.abreast s t → T.abreast s' t' → (size s' < size s ↔ size t' < size t))
    (hstep : ∀ c d, G c d → T.Keeps (step c) (step' d)
      (Option.Rel fun u v => Q u.1 v.1 ∧ G u.2 v.2))
    (hrest : ∀ d, T.Rests (step' d)) {c : γ} {d : δ} (hc : G c d) :
    T.Keeps (Repeat.collect size step c) (Repeat.collect size step' d) (List.Forall₂ Q) := by
  intro s t hst
  induction hn : size t using Nat.strongRecOn generalizing c d s t with
  | _ n ih =>
  have hround := hstep c d hc s t hst
  -- once the second run is over, the rounds behind this one do not matter
  have hlast : T.Ended (fun _ => T.spent) (step' d t) →
      T.Outcome (fun as bs s t => List.Forall₂ Q as bs ∧ T.abreast s t) (fun _ => T.spent)
        (Repeat.collect size step c s) (Repeat.collect size step' d t) :=
    fun h => (Ends.collect hrest (fun u (hu : u = t) => by rwa [hu]) t rfl).outcome
  cases hy : step' d t with
  | error e t' =>
    rw [hy] at hround hlast
    rcases hround with ⟨e', s', hx, he⟩ | hcut
    · rw [Repeat.collect, Repeat.collect, hx, hy]
      exact .inl ⟨e', s', rfl, he⟩
    · exact hlast hcut
  | ok o t' =>
    rw [hy] at hround hlast
    rcases hround with ⟨o₁, s', hx, ho, hst'⟩ | hover
    · rw [Repeat.collect, Repeat.collect, hx, hy]
      cases ho with
      | none => exact .inl ⟨[], s', rfl, .nil, hst'⟩
      | @some u v huv =>
        by_cases hless : size t' < size t
        · simp only [hless, (hsize _ _ _ _ hst hst').2 hless, if_true]
          have hrest := ih (size t') (by omega) huv.2 s' t' hst' rfl
          cases hmore : Repeat.collect size step' v.2 t' with
          | ok bs t'' =>
            rw [hmore] at hrest
            rcases hrest with ⟨as, s'', hx', has, hs⟩ | hover
            · exact .inl ⟨u.1 :: as, s'', by rw [hx'], .cons huv.1 has, hs⟩
            · exact .inr hover
          | error e t'' =>
            rw [hmore] at hrest
            rcases hrest with ⟨e', s'', hx', he⟩ | hcut
            · exact .inl ⟨e', s'', by rw [hx'], he⟩
            · exact .inr hcut
        · have hless' : ¬ size s' < size s := fun h => hless ((hsize _ _ _ _ hst hst').1 h)
          simp only [hless, hless', if_false]
          exact .inl ⟨[u.1], s', rfl, .cons huv.1 .nil, hst'⟩
    · exact hlast hover

@[grind ←] theorem Rests.many {step' : EStateM ε σ (Option β)} (h : T.Rests step') :
    T.Rests (Repeat.many size step') :=
  Rests.collect (fun _ => h.bind fun _ => .pure _) ()

theorem Keeps.many {step : EStateM ε σ (Option α)} {step' : EStateM ε σ (Option β)}
    (hsize : ∀ s t s' t', T.abreast s t → T.abreast s' t' → (size s' < size s ↔ size t' < size t))
    (hstep : T.Keeps step step' (Option.Rel Q)) (hrest : T.Rests step') :
    T.Keeps (Repeat.many size step) (Repeat.many size step') (List.Forall₂ Q) := by
  refine Keeps.collect (G := fun _ _ => True) hsize (fun _ _ _ => ?_)
    (fun _ => hrest.bind fun _ => .pure _) trivial
  refine hstep.bind (fun o o' ho => .pure ?_) fun _ => .pure _
  cases ho with
  | none => exact .none
  | some h => exact .some ⟨h, trivial⟩

end Repetition

end Tandem

end ScriptOutline
