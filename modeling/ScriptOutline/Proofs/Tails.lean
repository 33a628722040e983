/-
Where a tail begins and where it ends.

The rest of an expression is kept as a tail if its first token stands on the line of what was
taken apart, or carries that line on.  Behind that token line breaks are not asked for: the
tail runs on over all lines up to the semicolon, comma, colon or closing bracket that ends
the expression, or to the end of the input.
-/
import ScriptOutline.Proofs.Warnings

namespace ScriptOutline

open TokenTree Node

def Node.tail? : Node → Option (List TokenTree)
  | reference _ _ tail | invocation _ _ _ _ tail => tail
  | _ => none

def Node.tailsAll (ns : List Node) : List (List TokenTree) := (preorderAll ns).filterMap tail?

namespace Node

variable {node : Node} {ms ns : List Node}

theorem tailsAll_append (ms ns : List Node) : tailsAll (ms ++ ns) = tailsAll ms ++ tailsAll ns := by
  rw [tailsAll, preorderAll_append, List.filterMap_append]
  rfl

theorem tailsAll_around (h : preorder node = node :: preorderAll ns) :
    tailsAll [node] = node.tail?.toList ++ tailsAll ns := by
  rw [tailsAll, preorderAll_singleton, h, List.filterMap_cons]
  cases node.tail? <;> rfl

theorem tailsAll_withComments (node : Node) (comments : List Comment) :
    tailsAll [node.withComments comments] = tailsAll [node] := by
  cases node <;> rfl

end Node

variable {m : Nat → Token} {n : Nat} {x y : Stage} {ns : List Node}

/-- The trees are the rest of an expression somewhere among the tokens. -/
def RunOn (m : Nat → Token) (trees : List TokenTree) : Prop := ∃ j k, RunsOn m j trees k

theorem TailRead.runOn {tail : Option (List TokenTree)} (h : TailRead m x tail y) :
    ∀ trees ∈ tail.toList, RunOn m trees := by
  cases h with
  | none => simp
  | @some k trees _ _ runsOn =>
    intro trees' htrees
    obtain rfl : trees' = trees := by simpa using htrees
    exact ⟨x.index, k, runsOn⟩

/-- Whatever tail is kept was read as the rest of an expression. -/
theorem Reads.runOn (h : Reads m n x ns y) : ∀ trees ∈ tailsAll ns, RunOn m trees := by
  induction h with
  | nil => exact fun _ h => nomatch h
  | append _ _ ih ih' =>
    rw [tailsAll_append]
    exact List.forall_mem_append.2 ⟨ih, ih'⟩
  | passing _ _ _ ih | dropping _ _ ih | deeper _ _ ih => exact ih
  | recommented comments _ ih =>
    rw [tailsAll_withComments]
    exact ih
  | declaration | returnNothing | primitive | object | expression | skipped =>
    exact fun _ h => nomatch h
  | returnValue _ ih | assignment _ _ _ ih | instantiation _ ih =>
    rw [tailsAll_around (by rw [preorderAll_singleton]; rfl)]
    exact ih
  | block _ ih | array _ ih | function _ _ ih | call _ _ ih =>
    rw [tailsAll_around rfl]
    exact ih
  | immediate _ _ _ ih ih' =>
    rw [tailsAll_around (by rw [preorderAll_append]; rfl), tailsAll_append]
    exact List.forall_mem_append.2 ⟨fun _ h => (nomatch h), List.forall_mem_append.2 ⟨ih, ih'⟩⟩
  | reference _ rest =>
    rw [tailsAll_around (show preorder _ = _ :: preorderAll [] from rfl)]
    exact List.forall_mem_append.2 ⟨rest.runOn, fun _ h => nomatch h⟩
  | invocation _ _ _ rest ih ih' =>
    rw [tailsAll_around (by rw [preorderAll_append]; rfl), tailsAll_append]
    exact List.forall_mem_append.2 ⟨rest.runOn, List.forall_mem_append.2 ⟨ih, ih'⟩⟩

/-- Every tail in a script is a run of the tokens that its reader meets.  Only its first token
is asked whether it starts a line; behind it the tail holds everything up to the first
semicolon, comma, closing bracket, colon of no question mark or end of the input. -/
theorem Script.tails_run_on {feed : TokenFeed} {s : Script} (h : ofFeed feed = .ok s) :
    ∀ trees ∈ tailsAll s.body, RunOn (Semicolons.corrected feed.raw) trees := by
  obtain ⟨x, t, hreads, -, -⟩ := derivation h
  exact hreads.runOn

/-- The name on the second line belongs to the tail. -/
theorem Script.tails_run_on_lines :
    ∃ s, ofFeed (.ofText "a + b\nc") = .ok s ∧
      (tailsAll s.body).map (List.map fun tree => (tree.first.value, tree.first.startsLine)) =
        [[("+", false), ("b", false), ("c", true)]] ∧
      ∀ trees ∈ tailsAll s.body,
        RunOn (Semicolons.corrected (TokenFeed.ofText "a + b\nc").raw) trees := by
  have hfull : (ofFeed (.ofText "a + b\nc")).toOption.any (fun s =>
      (tailsAll s.body).map (List.map fun tree => (tree.first.value, tree.first.startsLine)) ==
        [[("+", false), ("b", false), ("c", true)]]) = true := by
    decide +kernel
  obtain ⟨s, hs, htails⟩ := exists_of_any hfull
  exact ⟨s, hs, eq_of_beq htails, tails_run_on hs⟩

end ScriptOutline
