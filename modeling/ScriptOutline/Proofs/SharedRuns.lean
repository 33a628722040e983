/-
A run on a shared stream is a run on the stream that is seen.

`Mirrors` relates a computation on a shared stream to one on a `TokenStream`.  It is kept by
sequences, choices and repetitions, so it goes from the operations that fetch to the reading
of groups and from there to any run.  Counting the open groups in the stream comes to
the same as handing down how many may still be opened.
-/
import ScriptOutline.Proofs.SharedStream

namespace ScriptOutline
namespace SharedStream

open Semicolons

variable {s s' : SharedStream} {q : Place} {start : SharedStream} {depth : Nat}

/-- From streams of which `P` holds, `x` and `y` end alike. -/
def Mirrors {α β : Type} (P : SharedStream → Prop) (x : Sharing α) (y : Streaming β)
    (R : α → β → SharedStream → Prop) (E : SharedStream → Prop) : Prop :=
  ∀ s, P s → Shown R E (x s) (y s.view)

section Mirrors

variable {α β γ δ : Type} {P : SharedStream → Prop} {x : Sharing α} {y : Streaming β}
  {R : α → β → SharedStream → Prop} {E : SharedStream → Prop}

theorem Mirrors.bind {Q : γ → δ → SharedStream → Prop} {f : α → Sharing γ} {g : β → Streaming δ}
    (hx : Mirrors P x y R E) (hf : ∀ a b, Mirrors (R a b) (f a) (g b) Q E) :
    Mirrors P (x >>= f) (y >>= g) Q E := by
  intro s hs
  rcases (hx s hs).cases with ⟨a, b, s', hx, hy, hr⟩ | ⟨e, s', hx, hy, he⟩
  · rw [bind_run_ok hx, bind_run_ok hy]
    exact hf a b s' hr
  · rw [bind_run, hx, bind_run, hy]
    exact ⟨rfl, rfl, he⟩

theorem Mirrors.ite {c : Prop} [Decidable c] {x' : Sharing α} {y' : Streaming β}
    (ht : Mirrors P x y R E) (hf : Mirrors P x' y' R E) :
    Mirrors P (if c then x else x') (if c then y else y') R E := by
  split
  · exact ht
  · exact hf

end Mirrors

/-- The same result, between two operations. -/
def Alike (start : SharedStream) (depth : Nat) {α : Type} (a b : α) (s : SharedStream) : Prop :=
  b = a ∧ Ready start depth s

/-- Between two operations `x` does to what is seen what `y` does. -/
abbrev Keeps (start : SharedStream) (depth : Nat) {α : Type} (x : Sharing α) (y : Streaming α) :
    Prop :=
  Mirrors (Ready start depth) x y (Alike start depth) (Ready start depth)

def viewed {α : Type} :
    EStateM.Result ReadError SharedStream α → EStateM.Result ReadError TokenStream α
  | .ok a s => .ok a s.view
  | .error e s => .error e s.view

theorem Shown.viewed {α : Type} {start : SharedStream} {depth : Nat} {E : SharedStream → Prop}
    {o : EStateM.Result ReadError SharedStream α} {o' : EStateM.Result ReadError TokenStream α}
    (h : Shown (Alike start depth) E o o') : viewed o = o' := by
  rcases h.cases with ⟨a, b, s, rfl, rfl, rfl, -⟩ | ⟨e, s, rfl, rfl, -⟩
  · rfl
  · rfl

theorem reading_mirrors {x : Sharing Place} {y : Streaming Seen}
    (h : Mirrors (Ready start depth) x y (fun p c s => c = s.seen p ∧ Ready start depth s)
      (Ready start depth)) :
    Keeps start depth (reading x) (do return (← y).token) := by
  refine h.bind fun p c s hs => ?_
  obtain ⟨rfl, hs⟩ := hs
  exact ⟨rfl, rfl, hs⟩

theorem token_mirrors : Keeps start depth token TokenStream.token := by
  refine reading_mirrors fun s hs => ?_
  rcases (currentPlace_mirrors hs).cases with ⟨p, c, s', hx, hy, hc, hs', -⟩ | ⟨e, s', hx, hy, he⟩
  · rw [hx, hy]
    exact ⟨rfl, hc, hs'⟩
  · rw [hx, hy]
    exact ⟨rfl, rfl, he⟩

/-- What begins with the current token is alike if it is once that token has been fetched. -/
theorem looked_mirrors {α β : Type} {f : Place → Sharing α} {g : Seen → Streaming β}
    {R : α → β → SharedStream → Prop}
    (h : ∀ {s q}, Ready start depth s → s.current = some q →
      Shown R (Ready start depth) ((currentPlace >>= f) s)
        ((TokenStream.currentSeen >>= g) s.view)) :
    Mirrors (Ready start depth) (currentPlace >>= f) (TokenStream.currentSeen >>= g) R
      (Ready start depth) := by
  intro s hs
  rcases (currentPlace_mirrors hs).cases with ⟨q, c, s', hx, hy, rfl, hs', hq⟩ | ⟨e, s', hx, hy, he⟩
  · have hagain := h hs' hq
    rw [bind_run_ok (show currentPlace s' = .ok q s' by rw [currentPlace_run, hq]),
      bind_run_ok (show TokenStream.currentSeen s'.view = .ok (s'.seen q) s'.view by
        rw [Pairing.currentSeen_run, view_current hq])] at hagain
    rw [bind_run_ok hx, bind_run_ok hy]
    exact hagain
  · rw [bind_run, hx, bind_run, hy]
    exact ⟨rfl, rfl, he⟩

theorem peek_mirrors : Keeps start depth peek TokenStream.peek := by
  refine reading_mirrors ?_
  unfold peekPlace TokenStream.peekSeen
  exact looked_mirrors fun hs hc => peekPlace_mirrors_looked hs hc

theorem advance_mirrors : Keeps start depth advance TokenStream.advance := by
  refine reading_mirrors ?_
  unfold advancePlace TokenStream.advanceSeen
  exact looked_mirrors fun hs hc => advancePlace_mirrors_looked hs hc

/-- A step whose result is the same, and one that goes on from it. -/
theorem Mirrors.andThen {α β γ : Type} {x : Sharing α} {y : Streaming α} {f : α → Sharing β}
    {g : α → Streaming γ} {R : β → γ → SharedStream → Prop} (hx : Keeps start depth x y)
    (hf : ∀ a, Mirrors (Ready start depth) (f a) (g a) R (Ready start depth)) :
    Mirrors (Ready start depth) (x >>= f) (y >>= g) R (Ready start depth) := by
  refine hx.bind fun a b s hs => ?_
  obtain ⟨rfl, hs⟩ := hs
  exact hf b s hs

theorem keeps_pure {α : Type} (a : α) : Keeps start depth (pure a) (pure a) :=
  fun _ hs => ⟨rfl, rfl, hs⟩

theorem keeps_throw {α : Type} (e : ReadError) :
    Keeps start depth (throw e : Sharing α) (throw e) :=
  fun _ hs => ⟨rfl, rfl, hs⟩

theorem expect_mirrors (p : TokenPattern) : Keeps start depth (expect p) (TokenStream.expect p) :=
  token_mirrors.andThen fun t => .ite (keeps_pure t) (keeps_throw _)

/-- Repetitions whose rounds are alike are alike. -/
theorem collect_mirrors {α β : Type} {step : β → Sharing (Option (α × β))}
    {step' : β → Streaming (Option (α × β))} (h : ∀ b, Keeps start depth (step b) (step' b))
    (b : β) :
    Keeps start depth (Repeat.collect (fun s => s.view.remaining) step b)
      (Repeat.collect TokenStream.remaining step' b) := by
  intro s hs
  induction hsize : s.view.remaining using Nat.strongRecOn generalizing b s with
  | ind n ih =>
    unfold Repeat.collect
    rcases (h b s hs).cases with ⟨_, o, s₁, hx, hy, rfl, hs₁⟩ | ⟨e, s₁, hx, hy, he⟩
    · rw [hx, hy]
      rcases o with _ | ⟨a, c⟩
      · exact ⟨rfl, rfl, hs₁⟩
      by_cases hless : s₁.view.remaining < s.view.remaining
      · simp only [hless, if_true]
        rcases (ih _ (hsize ▸ hless) c s₁ hs₁ rfl).cases with
          ⟨as, as', s₂, hx', hy', rfl, hs₂⟩ | ⟨e, s₂, hx', hy', he⟩
        · rw [hx', hy']
          exact ⟨rfl, rfl, hs₂⟩
        · rw [hx', hy']
          exact ⟨rfl, rfl, he⟩
      · simp only [hless, if_false]
        exact ⟨rfl, rfl, hs₁⟩
    · rw [hx, hy]
      exact ⟨rfl, rfl, he⟩

variable {group : Sharing TokenTree} {group' : Streaming TokenTree}

theorem gather_mirrors (h : Keeps start depth group group') (ends : Nat → Token → Bool) :
    Keeps start depth (gather group ends) (TokenStream.gather group' ends) := by
  refine collect_mirrors (fun b => ?_) 0
  refine token_mirrors.andThen fun t => .ite (keeps_pure none) (.ite ?_ ?_)
  · exact h.andThen fun tree => keeps_pure _
  · exact advance_mirrors.andThen fun _ => keeps_pure _

theorem treesUntil_mirrors (h : Keeps start depth group group') (p : TokenPattern) :
    Keeps start depth (treesUntil group p) (TokenStream.treesUntil group' p) :=
  advance_mirrors.andThen fun _ => (gather_mirrors h _).andThen fun trees =>
    token_mirrors.andThen fun _ => .ite (keeps_pure trees) (keeps_throw _)

theorem Ready.counting (hs : Ready start depth s) (n : Nat) :
    Ready start n { s with groupDepth := n } where
  sound := ⟨hs.sound.repoint _ _ _ n, hs.sound.window, hs.sound.inOrder, hs.sound.previous,
    hs.sound.current⟩
  source := hs.source
  calls := hs.calls
  count := rfl

theorem deeper_mirrors {α : Type} {x : Sharing α} {y : Streaming α}
    (h : Keeps start (depth + 1) x y) : Keeps start depth (deeper x) y := by
  intro s hs
  have hcount : s.groupDepth + 1 = depth + 1 := by rw [hs.count]
  have hrun := h { s with groupDepth := s.groupDepth + 1 } (hcount ▸ hs.counting _)
  have hview : view { s with groupDepth := s.groupDepth + 1 } = s.view := rfl
  rw [hview] at hrun
  unfold deeper
  rcases hrun.cases with ⟨a, b, s', hx, hy, rfl, hs'⟩ | ⟨e, s', hx, hy, hs'⟩
  · rw [hx, hy]
    have hback : s'.groupDepth - 1 = depth := by rw [hs'.count, Nat.add_sub_cancel]
    exact ⟨rfl, rfl, hback ▸ hs'.counting _⟩
  · rw [hx, hy]
    have hback : s'.groupDepth - 1 = depth := by rw [hs'.count, Nat.add_sub_cancel]
    exact ⟨rfl, rfl, hback ▸ hs'.counting _⟩

/-- The count in the stream and the levels that are left make up the limit. -/
theorem groupWithin_mirrors {levels : Nat} (h : depth + levels = nestingLimit) :
    Keeps start depth (groupWithin (levels + 1)) (TokenStream.groupWithin levels) := by
  induction levels generalizing depth with
  | zero =>
    refine (expect_mirrors _).andThen fun opener s hs => ?_
    have hfull : nestingLimit ≤ s.groupDepth := by
      rw [hs.count, ← h]
      exact Nat.le_refl _
    rw [bind_run_ok (get_run s), if_pos hfull]
    exact ⟨rfl, rfl, hs⟩
  | succ levels ih =>
    refine (expect_mirrors _).andThen fun opener s hs => ?_
    have hroom : ¬ nestingLimit ≤ s.groupDepth := by
      rw [hs.count, ← h]
      omega
    rw [bind_run_ok (get_run s), if_neg hroom]
    have hinner : depth + 1 + levels = nestingLimit := by omega
    refine (deeper_mirrors (treesUntil_mirrors (ih hinner) _)).andThen (fun trees => ?_) s hs
    refine token_mirrors.andThen fun closer => advance_mirrors.andThen fun _ => keeps_pure _

theorem group_mirrors : Keeps start 0 SharedStream.group TokenStream.group :=
  groupWithin_mirrors (Nat.zero_add _)

theorem skipUntil_mirrors (p : TokenPattern) (stay : Bool) :
    Keeps start 0 (skipUntil p stay) (TokenStream.skipUntil p stay) := by
  refine (treesUntil_mirrors group_mirrors p).andThen fun trees => ?_
  cases stay with
  | true => exact keeps_pure trees
  | false => exact advance_mirrors.andThen fun _ => keeps_pure trees

end SharedStream

/-- What may be asked of a stream, the reading of trees included. -/
inductive Operation where
  | ask (q : TokenStream.Request)
  | skipUntil (p : TokenPattern) (stay : Bool)
  | group

namespace TokenStream

def ask : Request → Streaming (Option Token)
  | .current => do return some (← token)
  | .peek => do return some (← peek)
  | .previous => do return (← get).previous.map (·.token)
  | .advance => do return some (← advance)
  | .expect p => do return some (← expect p)

def perform : Operation → Streaming (List TokenTree)
  | .ask q => do return ((← ask q).map .leaf).toList
  | .skipUntil p stay => skipUntil p stay
  | .group => do return [← group]

end TokenStream

def leftBy {ε σ α : Type} : EStateM.Result ε σ α → σ
  | .ok _ s => s
  | .error _ s => s

def TokenStream.after (s : TokenStream) : List Operation → TokenStream
  | [] => s
  | o :: os => after (leftBy (perform o s)) os

namespace SharedStream

def ask : TokenStream.Request → Sharing (Option Token)
  | .current => do return some (← token)
  | .peek => do return some (← peek)
  | .previous => do
    let s ← get
    return s.previous.map s.tokenAt
  | .advance => do return some (← advance)
  | .expect p => do return some (← expect p)

def perform : Operation → Sharing (List TokenTree)
  | .ask q => do return ((← ask q).map .leaf).toList
  | .skipUntil p stay => skipUntil p stay
  | .group => do return [← group]

def after (s : SharedStream) : List Operation → SharedStream
  | [] => s
  | o :: os => after (leftBy (perform o s)) os

theorem ask_mirrors (q : TokenStream.Request) : Keeps start depth (ask q) (TokenStream.ask q) := by
  cases q with
  | current => exact token_mirrors.andThen fun t => keeps_pure _
  | peek => exact peek_mirrors.andThen fun t => keeps_pure _
  | previous =>
    intro s hs
    refine ⟨rfl, ?_, hs⟩
    show (s.previous.map s.seen).map (·.token) = s.previous.map s.tokenAt
    rw [Option.map_map]
    rfl
  | advance => exact advance_mirrors.andThen fun t => keeps_pure _
  | expect p => exact (expect_mirrors p).andThen fun t => keeps_pure _

theorem perform_mirrors (o : Operation) : Keeps start 0 (perform o) (TokenStream.perform o) := by
  cases o with
  | ask q => exact (ask_mirrors q).andThen fun t => keeps_pure _
  | skipUntil p stay => exact skipUntil_mirrors p stay
  | group => exact group_mirrors.andThen fun tree => keeps_pure _

theorem ready_ofFeed (f : TokenFeed) : Ready (ofFeed f) 0 (ofFeed f) :=
  ⟨⟨⟨rfl, rfl, .fresh rfl rfl rfl⟩, rfl, fun _ => rfl, nofun, nofun⟩, rfl, Nat.le_refl _, rfl⟩

theorem Ready.here (hs : Ready start depth s) : Ready s depth s :=
  ⟨hs.sound, rfl, Nat.le_refl _, hs.count⟩

/-- A run of operations keeps the streams together. -/
theorem after_mirrors (os : List Operation) (hs : Ready start 0 s) :
    (s.after os).view = s.view.after os ∧ Ready start 0 (s.after os) := by
  induction os generalizing s with
  | nil => exact ⟨rfl, hs⟩
  | cons o os ih =>
    rw [after, TokenStream.after]
    rcases (perform_mirrors o s hs).cases with ⟨a, b, s', hx, hy, rfl, hs'⟩ | ⟨e, s', hx, hy, hs'⟩
    · rw [hx, hy]
      exact ih hs'
    · rw [hx, hy]
      exact ih hs'

/-- Over one source both streams go through the same, and do the same next. -/
theorem runs_alike (f : TokenFeed) (os : List Operation) :
    ((ofFeed f).after os).view = (TokenStream.ofFeed f).after os ∧
      ∀ o, viewed (perform o ((ofFeed f).after os)) =
        TokenStream.perform o ((TokenStream.ofFeed f).after os) := by
  obtain ⟨hview, hs⟩ := after_mirrors os (ready_ofFeed f)
  have hrun : ((ofFeed f).after os).view = (TokenStream.ofFeed f).after os := hview
  refine ⟨hrun, fun o => ?_⟩
  rw [← hrun]
  exact (perform_mirrors o _ hs).viewed

end SharedStream
end ScriptOutline
