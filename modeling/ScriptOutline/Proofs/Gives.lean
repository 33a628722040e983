/-
What a computation gives if it succeeds.

`Gives P x Q` says that `x`, run from a state of which `P` holds, gives nothing but
results of which `Q` holds.  The one thing that readers need to know of a state is the
token at which it stands: looking at it twice gives it twice, and looking past it leaves
it where it is.
-/
import ScriptOutline.Proofs.AbreastScript
import ScriptOutline.Proofs.Grouping

namespace ScriptOutline

section Triples

variable {ε σ α β γ : Type} {P P' : σ → Prop} {x : EStateM ε σ α} {f : α → EStateM ε σ β}
  {Q Q' : α → Prop} {G : β → Prop}

def Gives (P : σ → Prop) (x : EStateM ε σ α) (Q : α → Prop) : Prop :=
  ∀ s a s', P s → x s = .ok a s' → Q a

def anywhere (_ : σ) : Prop := True

theorem Gives.conseq (h : Gives P x Q) (hP : ∀ s, P' s → P s) (hQ : ∀ a, Q a → Q' a) :
    Gives P' x Q' := fun s a s' hs hrun => hQ a (h s a s' (hP s hs) hrun)

theorem Gives.from (h : Gives anywhere x Q) : Gives P x Q :=
  fun s a s' _ hrun => h s a s' trivial hrun

theorem Gives.and (h : Gives P x Q) (h' : Gives P x Q') : Gives P x fun a => Q a ∧ Q' a :=
  fun s a s' hs hrun => ⟨h s a s' hs hrun, h' s a s' hs hrun⟩

theorem Gives.pure {a : α} (h : Q a) : Gives P (pure a : EStateM ε σ α) Q := by
  intro s b s' _ hrun
  cases hrun
  exact h

theorem Gives.throw {e : ε} : Gives P (throw e : EStateM ε σ α) Q := by
  intro s a s' _ hrun
  cases hrun

theorem Gives.bind (hx : Gives P x Q) (hf : ∀ a, Q a → Gives anywhere (f a) G) :
    Gives P (x >>= f) G := by
  intro s b s' hs hrun
  obtain ⟨a, s₁, hfirst, hrest⟩ := bind_eq_ok.1 hrun
  exact hf a (hx s a s₁ hs hfirst) s₁ b s' trivial hrest

/-- A step of which nothing needs to be known. -/
theorem Gives.skip (hf : ∀ a, Gives anywhere (f a) G) : Gives P (x >>= f) G :=
  Gives.bind (Q := fun _ => True) (fun _ _ _ _ _ => trivial) fun a _ => hf a

theorem Gives.ite {c : Prop} [Decidable c] {y : EStateM ε σ α} (ht : c → Gives P x Q)
    (hf : ¬ c → Gives P y Q) : Gives P (if c then x else y) Q := by
  split
  · exact ht ‹c›
  · exact hf ‹¬ c›

theorem Gives.collect {size : σ → Nat} {step : β → EStateM ε σ (Option (α × β))}
    (h : ∀ b, Gives anywhere (step b) fun o => ∀ u ∈ o, Q u.1) (b : β) :
    Gives P (Repeat.collect size step b) fun as => ∀ a ∈ as, Q a := by
  intro s as s' hs hrun
  have hcollected := Repeat.collected_of_collect hrun
  clear hs hrun
  induction hcollected with
  | done _ => simp
  | more first _ _ ih => exact List.forall_mem_cons.2 ⟨h _ _ _ _ trivial first _ rfl, ih⟩
  | stuck first _ => exact List.forall_mem_singleton.2 (h _ _ _ _ trivial first _ rfl)

theorem Gives.many {size : σ → Nat} {step : EStateM ε σ (Option α)}
    (h : Gives anywhere step fun o => ∀ a ∈ o, Q a) :
    Gives P (Repeat.many size step) fun as => ∀ a ∈ as, Q a := by
  refine Gives.collect (fun _ => h.bind fun o ho => .pure ?_) ()
  intro u hu
  obtain ⟨a, ha, rfl⟩ := Option.map_eq_some_iff.1 hu
  exact ho a ha

end Triples

namespace TokenStream

variable {s s' : TokenStream} {t u : Token}

/-- The stream stands at `t`. -/
def Shows (t : Token) (s : TokenStream) : Prop := s.current.map (·.token) = some t

theorem shows_fetch {c : Seen} (h : fetch s = .ok c s') :
    s'.current.map (·.token) = s.current.map (·.token) := by
  obtain ⟨next, hn⟩ := next_of_fetch h
  have hsame := Pairing.map_token_followedBy s.current next
  rw [fetch_run hn] at h
  split at h
  · cases h
    exact hsame
  · cases h
    exact hsame

theorem currentSeen_shows {c : Seen} (h : currentSeen s = .ok c s') : Shows c.token s' := by
  rw [Shows, Pairing.current_of_currentSeen h, Option.map_some]

theorem token_shows (h : token s = .ok t s') : Shows t s' := by
  obtain ⟨c, s₁, hc, h⟩ := bind_eq_ok.1 h
  cases h
  exact currentSeen_shows hc

theorem currentSeen_of_shows (h : Shows u s) :
    ∃ c, s.current = some c ∧ c.token = u ∧ currentSeen s = .ok c s := by
  obtain ⟨c, hc, hu⟩ := Option.map_eq_some_iff.1 h
  exact ⟨c, hc, hu, by rw [Pairing.currentSeen_run, hc]⟩

theorem token_of_shows (h : Shows u s) : token s = .ok u s := by
  obtain ⟨c, -, rfl, hrun⟩ := currentSeen_of_shows h
  rw [token, bind_run_ok hrun]
  rfl

theorem advance_shows (h : advance s = .ok t s') : Shows t s' := by
  obtain ⟨c, s₁, hc, h⟩ := bind_eq_ok.1 h
  cases h
  rw [Pairing.advanceSeen_eq] at hc
  obtain ⟨d, s₂, hd, hc⟩ := bind_eq_ok.1 hc
  rcases Pairing.advanceSeen_of_ok (Pairing.current_of_currentSeen hd) hc with
    ⟨-, rfl⟩ | ⟨-, s₃, -, rfl⟩
  · rfl
  · rfl

theorem peek_shows (h : Shows u s) (hrun : peek s = .ok t s') : Shows u s' := by
  obtain ⟨c, hc, -, -⟩ := currentSeen_of_shows h
  obtain ⟨d, s₁, hd, hrun⟩ := bind_eq_ok.1 hrun
  cases hrun
  rcases Pairing.peekSeen_of_ok hc hd with ⟨-, rfl⟩ | ⟨-, s₂, hf, rfl⟩
  · exact h
  · exact (shows_fetch hf).trans h

/-- The group at an opening bracket begins with it. -/
theorem groupWithin_gives (depth : Nat) :
    Gives (Shows u) (groupWithin depth)
      fun tree => ∃ trees closer, tree = .group u trees closer := by
  intro s tree s' hs hrun
  cases depth with
  | zero =>
    obtain ⟨_, _, _, hrun⟩ := bind_eq_ok.1 hrun
    cases hrun
  | succ depth =>
    obtain ⟨opener, s₁, hopener, hrun⟩ := bind_eq_ok.1 hrun
    rw [expect, bind_run_ok (token_of_shows hs)] at hopener
    split at hopener
    · cases hopener
      obtain ⟨trees, s₂, _, hrun⟩ := bind_eq_ok.1 hrun
      obtain ⟨closer, s₃, _, hrun⟩ := bind_eq_ok.1 hrun
      obtain ⟨_, s₄, _, hrun⟩ := bind_eq_ok.1 hrun
      cases hrun
      exact ⟨trees, closer, rfl⟩
    · cases hopener

section Gather

open TokenTree

variable {depth n : Nat} {ends : Nat → Token → Bool}

/-- A round of `gather` at `u` gives nothing only if `u` ends the list. -/
theorem gatherStep_gives (hs : Shows u s) {o : Option (TokenTree × Nat)}
    (hrun : gatherStep (groupWithin depth) ends n s = .ok o s') :
    match o with
    | none => ends n u = true
    | some (tree, n') => tree.first = u ∧ ends n u = false ∧ n' = tree.conditionals n := by
  rw [gatherStep, bind_run_ok (token_of_shows hs)] at hrun
  split at hrun
  · rename_i hends
    cases hrun
    exact hends
  · rename_i hends
    rw [Bool.not_eq_true] at hends
    split at hrun
    · obtain ⟨tree, s₁, hgroup, hrun⟩ := bind_eq_ok.1 hrun
      cases hrun
      obtain ⟨trees, closer, rfl⟩ := groupWithin_gives depth _ _ _ hs hgroup
      exact ⟨rfl, hends, rfl⟩
    · obtain ⟨_, s₁, _, hrun⟩ := bind_eq_ok.1 hrun
      cases hrun
      exact ⟨rfl, hends, rfl⟩

theorem gatherStep_shows {o : Option (TokenTree × Nat)}
    (hrun : gatherStep (groupWithin depth) ends n s = .ok o s') :
    ∃ u s₁, Shows u s₁ ∧ token s = .ok u s₁ ∧
      gatherStep (groupWithin depth) ends n s₁ = .ok o s' := by
  obtain ⟨u, s₁, htoken, hrest⟩ := bind_eq_ok.1 hrun
  have hs₁ := token_shows htoken
  refine ⟨u, s₁, hs₁, htoken, ?_⟩
  rw [gatherStep, bind_run_ok (token_of_shows hs₁)]
  exact hrest

/-- Reading trees stops before the first token that ends them. -/
theorem gather_gives {P : TokenStream → Prop} :
    Gives P (gather (groupWithin depth) ends) (Unended ends 0) := by
  intro s trees s' hs hrun
  have hcollected := Repeat.collected_of_collect hrun
  clear hs hrun
  generalize 0 = n at hcollected ⊢
  induction hcollected with
  | done _ => trivial
  | more first _ _ ih =>
    obtain ⟨u, s₁, hs₁, -, hrun⟩ := gatherStep_shows first
    obtain ⟨rfl, hends, rfl⟩ := gatherStep_gives hs₁ hrun
    exact ⟨hends, ih⟩
  | stuck first _ =>
    obtain ⟨u, s₁, hs₁, -, hrun⟩ := gatherStep_shows first
    obtain ⟨rfl, hends, -⟩ := gatherStep_gives hs₁ hrun
    exact ⟨hends, trivial⟩

/-- There is a tree if the current token does not end the list. -/
theorem gather_ne_nil (hends : ends 0 u = false) :
    Gives (Shows u) (gather (groupWithin depth) ends) (· ≠ []) := by
  intro s trees s' hs hrun htrees
  subst htrees
  cases Repeat.collected_of_collect hrun with
  | done last =>
    have hended : ends 0 u = true := gatherStep_gives hs last
    rw [hends] at hended
    cases hended

end Gather

end TokenStream

namespace Reader

open TokenStream

variable {α β : Type} {P : Reading → Prop} {Q : α → Prop} {f : Token → Reader α} {t : Token}

def At (t : Token) (r : Reading) : Prop := Shows t r.stream

theorem onStream_gives {S : TokenStream → Prop} {x : Streaming α} (h : Gives S x Q) :
    Gives (fun r => S r.stream) (onStream x) Q := by
  intro r a r' hr hrun
  obtain ⟨s, hs, rfl⟩ := onStream_eq_ok.1 hrun
  exact h _ a s hr hs

/-- Looking at a token leaves a reading that stands at it, where the same token is found
again. -/
theorem token_again {r r' : Reading} (h : token r = .ok t r') : At t r' ∧ token r' = .ok t r' := by
  obtain ⟨s, hs, rfl⟩ := onStream_eq_ok.1 h
  have hshows := token_shows hs
  exact ⟨hshows, onStream_eq_ok.2 ⟨s, token_of_shows hshows, rfl⟩⟩

theorem token_gives (hf : ∀ t, Gives (At t) (f t) Q) : Gives P (token >>= f) Q := by
  intro r a r' _ hrun
  obtain ⟨t, r₁, htoken, hrest⟩ := bind_eq_ok.1 hrun
  obtain ⟨s, hs, rfl⟩ := onStream_eq_ok.1 htoken
  exact hf t _ a r' (token_shows hs) hrest

theorem token_gives_at (hf : Gives (At t) (f t) Q) : Gives (At t) (token >>= f) Q := by
  intro r a r' hr hrun
  obtain ⟨u, r₁, htoken, hrest⟩ := bind_eq_ok.1 hrun
  obtain ⟨s, hs, rfl⟩ := onStream_eq_ok.1 htoken
  have hshows := token_shows hs
  rw [token_of_shows hr] at hs
  cases hs
  exact hf _ a r' hshows hrest

theorem advance_gives (hf : ∀ t, Gives (At t) (f t) Q) : Gives P (advance >>= f) Q := by
  intro r a r' _ hrun
  obtain ⟨t, r₁, hadvance, hrest⟩ := bind_eq_ok.1 hrun
  obtain ⟨s, hs, rfl⟩ := onStream_eq_ok.1 hadvance
  exact hf t _ a r' (advance_shows hs) hrest

theorem peek_gives (hf : ∀ u, Gives (At t) (f u) Q) : Gives (At t) (peek >>= f) Q := by
  intro r a r' hr hrun
  obtain ⟨u, r₁, hpeek, hrest⟩ := bind_eq_ok.1 hrun
  obtain ⟨s, hs, rfl⟩ := onStream_eq_ok.1 hpeek
  exact hf u _ a r' (peek_shows hr hs) hrest

theorem expect_gives {pattern : TokenPattern}
    (hf : ∀ t, pattern.accepts t = true → Gives (At t) (f t) Q) :
    Gives P (expect pattern >>= f) Q := by
  intro r a r' _ hrun
  obtain ⟨t, r₁, hexpect, hrest⟩ := bind_eq_ok.1 hrun
  obtain ⟨s, hs, rfl⟩ := onStream_eq_ok.1 hexpect
  obtain ⟨u, s₁, htoken, hfits⟩ := bind_eq_ok.1 hs
  split at hfits
  · rename_i haccepts
    cases hfits
    exact hf t haccepts _ a r' (token_shows htoken) hrest
  · cases hfits

theorem looksPast_gives {asks : Bool} {test : Token → Bool} {g : Bool → Reader α}
    (hg : ∀ b, Gives (At t) (g b) Q) :
    Gives (At t) (looksPast asks test >>= g) Q := by
  intro r a r' hr hrun
  obtain ⟨b, r₁, hlook, hrest⟩ := bind_eq_ok.1 hrun
  unfold looksPast at hlook
  split at hlook
  · obtain ⟨u, r₂, hpeek, hlook⟩ := bind_eq_ok.1 hlook
    cases hlook
    obtain ⟨s, hs, rfl⟩ := onStream_eq_ok.1 hpeek
    exact hg _ _ a r' (peek_shows hr hs) hrest
  · cases hlook
    exact hg false r a r' hr hrest

theorem many_gives {step : Reader (Option α)} (h : Gives anywhere step fun o => ∀ a ∈ o, Q a) :
    Gives P (many step) fun as => ∀ a ∈ as, Q a := .many h

/-- A level deeper the same is given, or nothing. -/
theorem nested_gives_from {P' : Reading → Prop} (hP : ∀ r, P r → P' r.deeper) {x : Reader α}
    (h : Gives P' x Q) : Gives P (nested x) Q := by
  intro r a r' hr hrun
  unfold nested at hrun
  split at hrun
  · obtain ⟨_, _, _, hrun⟩ := bind_eq_ok.1 hrun
    cases hrun
  cases hx : x r.deeper with
  | ok b s =>
    rw [hx] at hrun
    cases hrun
    exact h _ a s (hP r hr) hx
  | error e s =>
    rw [hx] at hrun
    cases hrun

theorem nested_gives {x : Reader α} (h : Gives anywhere x Q) : Gives P (nested x) Q :=
  nested_gives_from (fun _ _ => trivial) h

theorem nested_gives_at {x : Reader α} (h : Gives (At t) x Q) : Gives (At t) (nested x) Q :=
  nested_gives_from (fun _ hr => hr) h

theorem group_gives :
    Gives (At t) group fun tree => ∃ trees closer, tree = .group t trees closer :=
  onStream_gives (groupWithin_gives _)

end Reader

end ScriptOutline
