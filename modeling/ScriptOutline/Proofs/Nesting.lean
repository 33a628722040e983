/-
How deep what a script says is nested.

A node is a level, and so is each of the nodes in it; token trees have levels of their own.
Both are bounded along the derivation of a script.
-/
import ScriptOutline.Proofs.Counter
import ScriptOutline.Proofs.TracedScript

namespace ScriptOutline

open TokenTree

namespace Node

mutual
/-- How deeply nodes are nested in a node, itself included. -/
def nesting : Node → Nat
  | block _ body | function _ _ body => 1 + nestingAll body
  | declaration .. | returnNothing _ | reference .. | object .. | primitive .. | expression ..
  | skipped .. => 1
  | assignment _ _ _ value | returnValue _ value | instantiation _ value => 1 + nesting value
  | call _ _ arguments => 1 + nestingAll arguments
  | invocation _ _ arguments chain _ => 1 + max (nestingAll arguments) (nestingAll chain)
  | array _ elements => 1 + nestingAll elements
  | immediate _ _ body arguments => 1 + max (nestingAll body) (nestingAll arguments)

def nestingAll : List Node → Nat
  | [] => 0
  | n :: ns => max (nesting n) (nestingAll ns)
end

mutual
/-- What a node keeps as trees, a part for each place where trees are kept, in reading order.
The keyword of a construct belongs to its trees. -/
def kept : Node → List (List TokenTree)
  | block _ body | function _ _ body => keptAll body
  | declaration .. | returnNothing _ | primitive .. => []
  | assignment _ _ _ value | returnValue _ value | instantiation _ value => kept value
  | call _ _ arguments => keptAll arguments
  | reference _ _ tail => tail.toList
  | invocation _ _ arguments chain tail => keptAll arguments ++ keptAll chain ++ tail.toList
  | array _ elements => keptAll elements
  | object _ trees | expression _ trees => [trees]
  | immediate _ _ body arguments => keptAll body ++ keptAll arguments
  | skipped _ keyword trees => [.leaf keyword :: trees]

def keptAll : List Node → List (List TokenTree)
  | [] => []
  | n :: ns => kept n ++ keptAll ns
end

theorem nestingAll_append (ms ns : List Node) :
    nestingAll (ms ++ ns) = max (nestingAll ms) (nestingAll ns) := by
  induction ms with
  | nil => simp [nestingAll]
  | cons m ms ih => rw [List.cons_append, nestingAll, nestingAll, ih, Nat.max_assoc]

@[simp] theorem nestingAll_singleton (n : Node) : nestingAll [n] = nesting n := Nat.max_zero _

@[simp] theorem nesting_withComments (c : List Comment) (n : Node) :
    (n.withComments c).nesting = n.nesting := by
  cases n <;> rfl

theorem keptAll_append (ms ns : List Node) : keptAll (ms ++ ns) = keptAll ms ++ keptAll ns := by
  induction ms with
  | nil => rfl
  | cons m ms ih => rw [List.cons_append, keptAll, keptAll, ih, List.append_assoc]

@[simp] theorem keptAll_singleton (n : Node) : keptAll [n] = kept n := List.append_nil _

@[simp] theorem kept_withComments (c : List Comment) (n : Node) :
    (n.withComments c).kept = n.kept := by
  cases n <;> rfl

end Node

open Node

variable {m : Nat → Token} {n : Nat} {x y : Stage} {ns : List Node}

theorem Reads.nesting_le (h : Reads m n x ns y) : nestingAll ns ≤ n := by
  induction h with
  | nil => exact Nat.zero_le _
  | append _ _ ih ih' =>
    rw [nestingAll_append]
    exact Nat.max_le.2 ⟨ih, ih'⟩
  | passing _ _ _ ih | dropping _ _ ih => exact ih
  | deeper _ le ih => exact Nat.le_trans ih le
  | recommented _ _ ih => simpa using ih
  | declaration | returnNothing | primitive | object | expression | skipped | reference =>
    simp [nesting]
  | returnValue _ ih | assignment _ _ _ ih | instantiation _ ih =>
    simp only [nestingAll_singleton, nesting] at ih ⊢
    omega
  | block _ ih | array _ ih | function _ _ ih | call _ _ ih =>
    simp only [nestingAll_singleton, nesting]
    omega
  | immediate _ _ _ ih ih' | invocation _ _ _ _ ih ih' =>
    simp only [nestingAll_singleton, nesting]
    omega

theorem TailRead.depth_le {tail : Option (List TokenTree)} (h : TailRead m x tail y) :
    ∀ part ∈ tail.toList, depthOf part ≤ nestingLimit := by
  cases h with
  | none => simp
  | some _ kept _ => simpa using kept.depth_le

theorem Reads.depth_le (h : Reads m n x ns y) :
    ∀ part ∈ keptAll ns, depthOf part ≤ nestingLimit := by
  induction h with
  | nil => simp [keptAll]
  | append _ _ ih ih' =>
    rw [keptAll_append]
    exact List.forall_mem_append.2 ⟨ih, ih'⟩
  | passing _ _ _ ih | dropping _ _ ih | deeper _ _ ih => exact ih
  | recommented _ _ ih => simpa using ih
  | declaration | returnNothing | primitive => simp [kept]
  | object kept | expression kept => simpa [Node.kept] using kept.depth_le
  | skipped _ kept => simpa [Node.kept] using kept.depth_le
  | returnValue _ ih | assignment _ _ _ ih | instantiation _ ih => simpa [kept] using ih
  | block _ ih | array _ ih | function _ _ ih | call _ _ ih => simpa [kept] using ih
  | reference _ rest => simpa [kept] using rest.depth_le
  | immediate _ _ _ ih ih' =>
    rw [keptAll_singleton, kept]
    exact List.forall_mem_append.2 ⟨ih, ih'⟩
  | invocation _ _ _ rest ih ih' =>
    rw [keptAll_singleton, kept]
    exact List.forall_mem_append.2 ⟨List.forall_mem_append.2 ⟨ih, ih'⟩, rest.depth_le⟩

namespace Script

/-- What is read is nested as deep as the guards allow, and the counter that they share is
right: every reader leaves it as it was, and a guarded reader is entered only while it says
how many of them are at work, which is never more than the limit. -/
theorem nesting_bounded (feed : TokenFeed) :
    (∀ s, ofFeed feed = .ok s → nestingAll s.body ≤ 2 * nestingLimit ∧
      ∀ part ∈ keptAll s.body, depthOf part ≤ nestingLimit) ∧
    (∀ (n : Nat) (α : Type) (m : Reader α), Readers.Part (.within n) m → ∀ r : Reading,
      Meets (fun _ r' => r'.depth = r.depth) (fun r' => r'.depth = r.depth) (m r)) ∧
    ∀ alarm : Readers, Expression.block (.watched alarm nestingLimit) (.ofFeed feed) =
      Expression.block (.within nestingLimit) (.ofFeed feed) := by
  refine ⟨fun s hs => ?_, fun n α m hm r => hm.depth_restored r, fun alarm => ?_⟩
  · obtain ⟨x, t, hreads, -⟩ := derivation hs
    exact ⟨hreads.nesting_le, hreads.depth_le⟩
  · have hwatched := Readers.watched_same alarm (Nat.zero_add nestingLimit)
    exact (Expression.block_same hwatched).same _ rfl

/-- A literal among the arguments of a call, two nodes deep. -/
theorem nesting_bounded_argument :
    let feed : TokenFeed := .ofText "f(\x7b\x7d)"
    (∃ s, ofFeed feed = .ok s ∧ nestingAll s.body = 2 ∧ (keptAll s.body).map depthOf = [1] ∧
      nestingAll s.body ≤ 2 * nestingLimit ∧ ∀ part ∈ keptAll s.body, depthOf part ≤ nestingLimit) ∧
    Meets (fun _ r => r.depth = 0) (fun r => r.depth = 0)
      (Expression.block (.within nestingLimit) (.ofFeed feed)) := by
  intro feed
  have hfull : (ofFeed feed).toOption.any (fun s =>
      decide (nestingAll s.body = 2 ∧ (keptAll s.body).map depthOf = [1])) = true := by
    decide +kernel
  obtain ⟨hbounds, hdepth, -⟩ := nesting_bounded feed
  obtain ⟨s, hs, hmeasured⟩ := exists_of_any hfull
  obtain ⟨hnodes, hparts⟩ := of_decide_eq_true hmeasured
  exact ⟨⟨s, hs, hnodes, hparts, hbounds s hs⟩, hdepth nestingLimit _ _ .block (.ofFeed feed)⟩

end Script

end ScriptOutline
