/-
A request that fails moves the source of a stream and nothing else.

What fails is a fetch, or a pattern that the current token does not fit.  A fetch fails
before anything has been kept, and a request has changed nothing by then but to fetch the
first token.
-/
import ScriptOutline.Proofs.Brackets
import ScriptOutline.Proofs.SharedRuns

namespace ScriptOutline
namespace SharedStream

open Semicolons

variable {s s' : SharedStream} {q : Place} {e : ReadError}

/-- The stream once its first token has been fetched, or as it is if that fails. -/
def begun (s : SharedStream) : SharedStream :=
  match currentPlace s with
  | .ok _ s' => s'
  | .error _ _ => s

/-- Only the source has moved. -/
def Stays (s s' : SharedStream) : Prop := ∃ n, s' = { s with calls := n }

theorem stays_of_fetch (h : fetch s = .error e s') : Stays s s' := by
  cases hheld : s.held with
  | some p =>
    rw [fetch_of_held hheld] at h
    cases h
  | none =>
    cases hn : s.source.item s.calls with
    | error d =>
      rw [fetch_of_fault hheld hn] at h
      cases h
      exact ⟨_, rfl⟩
    | ok next =>
      rw [fetch_of_token hheld hn] at h
      split at h <;> cases h

/-- An operation that fetches only where nothing waits for it fails where it fetches. -/
theorem stays_of_missing {o : Option Place} {g k : Place → SharedStream → SharedStream}
    (h : (match o with
      | some p => .ok p (g p s)
      | none =>
        match fetch s with
        | .ok p t => .ok p (k p t)
        | .error e t => .error e t) = EStateM.Result.error e s') : Stays s s' := by
  cases o with
  | some p => cases h
  | none =>
    cases hf : fetch s with
    | ok p t =>
      rw [hf] at h
      cases h
    | error d t =>
      rw [hf] at h
      cases h
      exact stays_of_fetch hf

theorem current_of_currentPlace (h : currentPlace s = .ok q s') : s'.current = some q := by
  rw [currentPlace_run] at h
  cases hc : s.current with
  | some p =>
    rw [hc] at h
    cases h
    exact hc
  | none =>
    rw [hc] at h
    cases hf : fetch s with
    | ok p s₁ =>
      rw [hf] at h
      cases h
      rfl
    | error d s₁ =>
      rw [hf] at h
      cases h

theorem begun_of_current (h : s.current = some q) : s.begun = s := by
  rw [begun, currentPlace_run, h]

theorem begun_of_ok (h : currentPlace s = .ok q s') : s.begun = s' := by rw [begun, h]

theorem stays_of_currentPlace (h : currentPlace s = .error e s') : Stays s.begun s' := by
  have hbegun : s.begun = s := by rw [begun, h]
  rw [hbegun]
  rw [currentPlace_run] at h
  exact stays_of_missing (g := fun _ s => s) (k := fun p s => { s with current := some p }) h

theorem stays_of_bind {α : Type} {f : Place → Sharing α}
    (hf : ∀ {s q s'}, s.current = some q → (currentPlace >>= f) s = .error e s' → Stays s s')
    (h : (currentPlace >>= f) s = .error e s') : Stays s.begun s' := by
  rcases bind_eq_error.1 h with h | ⟨q, s₁, hq, h⟩
  · exact stays_of_currentPlace h
  · have hc := current_of_currentPlace hq
    rw [begun_of_ok hq]
    refine hf hc ?_
    rw [bind_run_ok (show currentPlace s₁ = .ok q s₁ by rw [currentPlace_run, hc])]
    exact h

theorem stays_of_peekPlace (h : peekPlace s = .error e s') : Stays s.begun s' := by
  unfold peekPlace at h
  refine stays_of_bind (fun {s q s'} hc h => ?_) h
  change peekPlace s = _ at h
  rw [peekPlace_run hc] at h
  exact stays_of_missing (g := fun _ s => s) (k := fun p s => { s with peeked := some p }) h

theorem stays_of_advancePlace (h : advancePlace s = .error e s') : Stays s.begun s' := by
  unfold advancePlace at h
  refine stays_of_bind (fun {s q s'} hc h => ?_) h
  change advancePlace s = _ at h
  rw [advancePlace_run hc] at h
  exact stays_of_missing
    (g := fun p s => { s with previous := some q, current := some p, peeked := none })
    (k := fun p s => { s with previous := some q, current := some p }) h

theorem reading_eq_error {x : Sharing Place} (h : reading x s = .error e s') :
    x s = .error e s' := by
  rcases bind_eq_error.1 h with h | ⟨p, s₁, -, h⟩
  · exact h
  · cases h

theorem map_eq_error {α β : Type} {x : Sharing α} {f : α → β}
    (h : (x >>= fun a => pure (f a)) s = .error e s') : x s = .error e s' := by
  rcases bind_eq_error.1 h with h | ⟨a, s₁, -, h⟩
  · exact h
  · cases h

theorem stays_of_expect {p : TokenPattern} (h : expect p s = .error e s') : Stays s.begun s' := by
  rcases bind_eq_error.1 h with h | ⟨t, s₁, ht, h⟩
  · exact stays_of_currentPlace (reading_eq_error h)
  · obtain ⟨q, s₂, hq, hread⟩ := bind_eq_ok.1 ht
    cases hread
    split at h
    · cases h
    · cases h
      rw [begun_of_ok hq]
      exact ⟨_, rfl⟩

theorem stays_of_ask {q : TokenStream.Request} (h : ask q s = .error e s') : Stays s.begun s' := by
  cases q with
  | current => exact stays_of_currentPlace (reading_eq_error (map_eq_error h))
  | peek => exact stays_of_peekPlace (reading_eq_error (map_eq_error h))
  | previous => cases h
  | advance => exact stays_of_advancePlace (reading_eq_error (map_eq_error h))
  | expect p => exact stays_of_expect (map_eq_error h)

/-- Whatever has been asked of the streams and failed before, they stay together, a request that
fails moves the source and nothing else, no group is left open, and a group is refused only
behind as many opening brackets as may stand inside each other. -/
theorem failures_move_source_only (f : TokenFeed) (os : List Operation) :
    let s := (ofFeed f).after os
    let t := (TokenStream.ofFeed f).after os
    (s.view = t ∧ ∀ o, viewed (perform o s) = TokenStream.perform o t) ∧
    (∀ q e s', ask q s = .error e s' → ∃ n, s' = { s.begun with calls := n }) ∧
    (s.current.isSome → s.begun = s) ∧
    s.groupDepth = 0 ∧
    (f.Ends → ∀ e s', SharedStream.group s = .error e s' → e.fault = .nestingTooDeep →
      ∃ ts o, TokenStream.Sinks nestingLimit t ts o s'.view) := by
  intro s t
  have halike := runs_alike f os
  obtain ⟨-, hs⟩ := after_mirrors os (ready_ofFeed f)
  refine ⟨halike, fun q e s' => stays_of_ask, fun h => ?_, hs.count, fun hends e s' hgroup he => ?_⟩
  · obtain ⟨q, hq⟩ := Option.isSome_iff_exists.1 h
    exact begun_of_current hq
  · have hview : s.view = t := halike.1
    have hfeed : s.view.feed.Ends := (hs.source ▸ hends : s.source.Ends).drop _
    have hrun := (group_mirrors s hs).viewed
    rw [hgroup, hview] at hrun
    rw [hview] at hfeed
    obtain ⟨ts, o, hsinks, -⟩ :=
      (TokenStream.groupWithin_refuses nestingLimit hfeed).1 ⟨hrun.symm, he⟩
    exact ⟨ts, o, hsinks⟩

end SharedStream

end ScriptOutline
