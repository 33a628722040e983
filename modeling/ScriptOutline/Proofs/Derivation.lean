/-
What reading a script has made of its tokens.

`Reads m n x ns y` says that the nodes `ns` came of the tokens `m` between two stages.
There is a rule for each kind of node, and a few for what stands around nodes: tokens that
are passed, tails that are dropped, comments that go to another node.  What is kept as
trees is kept whole, `Kept`, and every warning is raised by the rule that loses something.

The rules also count how deep the nodes are nested.
-/
import ScriptOutline.Proofs.Stages

namespace ScriptOutline

open TokenTree

def stretch (m : Nat → Token) (j k : Nat) : List Token := (List.range' j (k - j)).map m

variable {m : Nat → Token} {j k l n : Nat}

theorem stretch_self (m : Nat → Token) (j : Nat) : stretch m j j = [] := by
  rw [stretch, Nat.sub_self]
  rfl

theorem stretch_succ (m : Nat → Token) (j : Nat) : stretch m j (j + 1) = [m j] := by
  rw [stretch, Nat.add_sub_cancel_left]
  rfl

theorem stretch_append (hjk : j ≤ k) (hkl : k ≤ l) :
    stretch m j k ++ stretch m k l = stretch m j l := by
  have hlen : l - j = (k - j) + (l - k) := by omega
  have hstart : j + (k - j) = k := by omega
  rw [stretch, stretch, stretch, ← List.map_append, hlen, ← List.range'_append_1, hstart]

theorem eq_stretch_of_spans {ts : List Token} (h : Spans m j ts) :
    ts = stretch m j (j + ts.length) := by
  induction ts generalizing j with
  | nil => exact (stretch_self m j).symm
  | cons t ts ih =>
    obtain ⟨rfl, h⟩ := h
    have hlen : j + (m j :: ts).length = j + 1 + ts.length := by
      rw [List.length_cons]
      omega
    rw [hlen, ← stretch_append (Nat.le_succ j) (by omega), stretch_succ, ← ih h]
    rfl

/-- The trees hold the tokens from `j` up to `k`, but for semicolons that were put in, and
none of those stands among them by itself. -/
structure Kept (m : Nat → Token) (j : Nat) (trees : List TokenTree) (k : Nat) : Prop where
  le : j ≤ k
  tokens : (tokensOf trees).filter (! ·.inserted) = (stretch m j k).filter (! ·.inserted)
  top : ∀ t, .leaf t ∈ trees → t.isPutIn = false
  depth_le : depthOf trees ≤ nestingLimit

namespace Kept

variable {ss ts : List TokenTree} {tree : TokenTree}

theorem nil (m : Nat → Token) (j : Nat) : Kept m j [] j :=
  ⟨Nat.le_refl j, by rw [stretch_self]; rfl, by simp, Nat.zero_le _⟩

theorem append (hs : Kept m j ss k) (ht : Kept m k ts l) : Kept m j (ss ++ ts) l := by
  refine ⟨Nat.le_trans hs.le ht.le, ?_, fun t h => ?_, ?_⟩
  · rw [tokensOf_append, List.filter_append, hs.tokens, ht.tokens, ← List.filter_append,
      stretch_append hs.le ht.le]
  · rcases List.mem_append.1 h with h | h
    · exact hs.top t h
    · exact ht.top t h
  · rw [depthOf_append]
    exact Nat.max_le.2 ⟨hs.depth_le, ht.depth_le⟩

theorem cons (hs : Kept m j [tree] k) (ht : Kept m k ts l) : Kept m j (tree :: ts) l :=
  hs.append ht

theorem leaf (h : (m j).isPutIn = false) : Kept m j [.leaf (m j)] (j + 1) := by
  refine ⟨Nat.le_succ j, ?_, ?_, Nat.zero_le _⟩
  · rw [stretch_succ]
    rfl
  · intro t ht
    obtain rfl : t = m j := by simpa using ht
    exact h

/-- A semicolon that was put in may be left out. -/
theorem putIn (h : (m j).inserted = true) : Kept m j [] (j + 1) := by
  refine ⟨Nat.le_succ j, ?_, by simp, Nat.zero_le _⟩
  rw [stretch_succ, List.filter_cons_of_neg (by simp [h])]
  rfl

end Kept

namespace Input

variable {i : Input} {s : TokenStream}

theorem kept_group {tree : TokenTree}
    (h : TokenStream.GroupAt i.feed i.raw k nestingLimit tree s) :
    Kept i.met k [tree] (k + tree.tokens.length) := by
  have htokens : tokensOf [tree] = tree.tokens := List.append_nil _
  refine ⟨Nat.le_add_right _ _, ?_, ?_, ?_⟩
  · rw [htokens]
    exact congrArg _ (eq_stretch_of_spans h.spans)
  · -- a group is no leaf
    intro t ht
    obtain rfl : .leaf t = tree := List.mem_singleton.1 ht
    have hclosed : t.isOpening = false := h.matched
    have hopens : t.isOpening = true := h.opens
    rw [hclosed] at hopens
    cases hopens
  · exact Nat.max_le.2 ⟨h.depth_le, Nat.zero_le _⟩

theorem kept_trees {ends : Nat → Token → Bool} {trees : List TokenTree}
    (hends : ∀ n t, t.isPunctuation ";" = true → ends n t = true)
    (h : TokenStream.TreesAt i.feed i.raw nestingLimit ends k n trees s) :
    Kept i.met k trees (k + (tokensOf trees).length) := by
  refine ⟨Nat.le_add_right _ _, ?_, ?_, h.depth_le⟩
  · exact congrArg _ (eq_stretch_of_spans h.spans)
  · -- a semicolon would have ended the list
    have hun := h.unended
    clear h
    intro t ht
    rw [Token.isPutIn, Bool.and_eq_false_iff]
    refine .inr ?_
    induction trees generalizing n with
    | nil => cases ht
    | cons tree trees ih =>
      rcases List.mem_cons.1 ht with rfl | ht
      · cases hsemi : t.isPunctuation ";" with
        | false => rfl
        | true =>
          have hends := hends n t hsemi
          rw [show ends n t = false from hun.1] at hends
          cases hends
      · exact ih hun.2 ht

end Input

/-- The trees are the rest of an expression: they begin with a token that continues it, hold
all tokens from `j` up to `k`, and end where the expression does. -/
structure RunsOn (m : Nat → Token) (j : Nat) (trees : List TokenTree) (k : Nat) : Prop where
  continues : (m j).endsExpression = false
  tokens : tokensOf trees = stretch m j k
  unended : Unended Expression.endsRest 0 trees
  ended : Expression.endsRest (trees.foldl conditionals 0) (m k) = true

/-! ## Derivations -/

/-- A path was read, which begins with the token there.  Where a key has to be computed there is
none, and a warning at the bracket. -/
inductive PathRead (m : Nat → Token) (x : Stage) : Option SymbolPath → Stage → Prop where
  | known {k : Nat} {path : SymbolPath} (lt : x.index < k) (root : path.root = m x.index) :
    PathRead m x (some path) (x.move k)
  | computed {j k : Nat} (lt : x.index < j) (bracket : (m j).isPunctuation "[" = true)
    (behind : j < k) : PathRead m x none ((x.move k).warned (m j) .computedAccess)

/-- The rest of an expression was read, with a warning at its first token if there was
one. -/
inductive TailRead (m : Nat → Token) (x : Stage) : Option (List TokenTree) → Stage → Prop where
  | none : TailRead m x none x
  | some {k : Nat} {trees : List TokenTree} (lt : x.index < k) (kept : Kept m x.index trees k)
    (runsOn : RunsOn m x.index trees k) :
    TailRead m x (some trees) ((x.move k).warned (m x.index) .incompleteExpression)

/-- The head of a function was read.  One without a name is counted. -/
inductive HeadRead (x : Stage) : FunctionHead → Stage → Prop where
  | named {k : Nat} {name : Token} {parameters : List Token} (lt : x.index < k) :
    HeadRead x { name := .named name, parameters } (x.move k)
  | anonymous {k : Nat} {parameters : List Token} (lt : x.index < k) :
    HeadRead x { name := .anonymous (x.anonymous + 1), parameters } (x.counted.move k)

/-- Reading the tokens `m` from one stage to another gave the nodes, nested at most `n`
deep. -/
inductive Reads (m : Nat → Token) : Nat → Stage → List Node → Stage → Prop where
  | nil {n : Nat} {x : Stage} : Reads m n x [] x
  | append {n : Nat} {x y z : Stage} {ns ms : List Node} (first : Reads m n x ns y)
    (second : Reads m n y ms z) : Reads m n x (ns ++ ms) z
  | passing {n j k : Nat} {x y : Stage} {ns : List Node} (before : x.index ≤ j)
    (nodes : Reads m n (x.move j) ns y) (behind : y.index ≤ k) : Reads m n x ns (y.move k)
  | dropping {n : Nat} {x y z : Stage} {ns : List Node} {tail : Option (List TokenTree)}
    (nodes : Reads m n x ns y) (dropped : TailRead m y tail z) : Reads m n x ns z
  | deeper {n n' : Nat} {x y : Stage} {ns : List Node} (nodes : Reads m n x ns y)
    (le : n ≤ n') : Reads m n' x ns y
  | recommented {n : Nat} {x y : Stage} {node : Node} (comments : List Comment)
    (nodes : Reads m n x [node] y) : Reads m n x [node.withComments comments] y
  | declaration {n : Nat} {x : Stage} {comments : List Comment} {word : DeclarationWord}
    {name : Token} : Reads m (n + 1) x [.declaration comments word name] x
  | returnNothing {n : Nat} {x : Stage} {comments : List Comment} :
    Reads m (n + 1) x [.returnNothing comments] x
  | primitive {n : Nat} {x : Stage} {comments : List Comment} {kind : PrimitiveKind}
    {t : Token} : Reads m (n + 1) x [.primitive comments kind t] x
  | object {n k : Nat} {x : Stage} {comments : List Comment} {trees : List TokenTree}
    (kept : Kept m x.index trees k) : Reads m (n + 1) x [.object comments trees] (x.move k)
  | expression {n k : Nat} {x : Stage} {comments : List Comment} {trees : List TokenTree}
    (kept : Kept m x.index trees k) : Reads m (n + 1) x [.expression comments trees] (x.move k)
  | skipped {n k : Nat} {x : Stage} {comments : List Comment} {trees : List TokenTree}
    (lt : x.index < k) (kept : Kept m x.index (.leaf (m x.index) :: trees) k) :
    Reads m (n + 1) x [.skipped comments (m x.index) trees]
      ((x.move k).warned (m x.index) (.constructSkipped (m x.index).value))
  | returnValue {n : Nat} {x y : Stage} {comments : List Comment} {value : Node}
    (nodes : Reads m n x [value] y) : Reads m (n + 1) x [.returnValue comments value] y
  | assignment {n : Nat} {x y : Stage} {comments : List Comment} {target : SymbolPath}
    {operator : String} {value : Node} (root : target.root = m x.index)
    (named : (m x.index).kind = .name) (nodes : Reads m n x.next [value] y) :
    Reads m (n + 1) x [.assignment comments target operator value] y
  | instantiation {n : Nat} {x y : Stage} {comments : List Comment} {constructor : Node}
    (nodes : Reads m n x [constructor] y) :
    Reads m (n + 1) x [.instantiation comments constructor] y
  | block {n : Nat} {x y : Stage} {comments : List Comment} {body : List Node}
    (nodes : Reads m n x body y) : Reads m (n + 1) x [.block comments body] y
  | array {n : Nat} {x y : Stage} {comments : List Comment} {elements : List Node}
    (nodes : Reads m n x elements y) : Reads m (n + 1) x [.array comments elements] y
  | function {n : Nat} {x y z : Stage} {comments : List Comment} {head : FunctionHead}
    {body : List Node} (named : HeadRead x head y) (nodes : Reads m n y body z) :
    Reads m (n + 1) x [.function comments head body] z
  | immediate {n : Nat} {x y z u : Stage} {comments : List Comment} {head : FunctionHead}
    {body arguments : List Node} (named : HeadRead x head y) (nodes : Reads m n y body z)
    (given : Reads m n z arguments u) :
    Reads m (n + 1) x [.immediate comments head body arguments] u
  | reference {n : Nat} {x y z : Stage} {comments : List Comment} {path : Option SymbolPath}
    {tail : Option (List TokenTree)} (root : PathRead m x path y) (rest : TailRead m y tail z) :
    Reads m (n + 1) x [.reference comments path tail] z
  | call {n : Nat} {x y z : Stage} {comments : List Comment} {callee : SymbolPath}
    {arguments : List Node} (root : PathRead m x (some callee) y)
    (given : Reads m n y arguments z) : Reads m (n + 1) x [.call comments callee arguments] z
  | invocation {n : Nat} {x y z u v : Stage} {comments : List Comment}
    {path : Option SymbolPath} {arguments chain : List Node} {tail : Option (List TokenTree)}
    (root : PathRead m x path y) (given : Reads m n y arguments z) (links : Reads m n z chain u)
    (rest : TailRead m u tail v) :
    Reads m (n + 1) x [.invocation comments path arguments chain tail] v

theorem PathRead.index_lt {x y : Stage} {path : Option SymbolPath} (h : PathRead m x path y) :
    x.index < y.index := by
  cases h with
  | known lt _ => exact lt
  | computed lt _ behind => exact Nat.lt_trans lt behind

theorem TailRead.index_le {x y : Stage} {tail : Option (List TokenTree)}
    (h : TailRead m x tail y) : x.index ≤ y.index := by
  cases h with
  | none => exact Nat.le_refl _
  | some lt _ _ => exact Nat.le_of_lt lt

theorem HeadRead.index_lt {x y : Stage} {head : FunctionHead} (h : HeadRead x head y) :
    x.index < y.index := by
  cases h with
  | named lt => exact lt
  | anonymous lt => exact lt

theorem HeadRead.later {x y : Stage} {head : FunctionHead} (h : HeadRead x head y) {j : Nat}
    (hj : j < y.index) : HeadRead (x.move j) head y := by
  cases h with
  | named _ => exact .named hj
  | anonymous _ => exact .anonymous hj

theorem HeadRead.behind {x y : Stage} {head : FunctionHead} (h : HeadRead x head y) {k : Nat}
    (hk : y.index ≤ k) : HeadRead x head (y.move k) := by
  cases h with
  | named lt => exact .named (Nat.lt_of_lt_of_le lt hk)
  | anonymous lt => exact .anonymous (Nat.lt_of_lt_of_le lt hk)

namespace Reads

variable {x y z : Stage} {ns : List Node}

theorem index_le (h : Reads m n x ns y) : x.index ≤ y.index := by
  induction h with
  | nil | declaration | returnNothing | primitive => exact Nat.le_refl _
  | append _ _ ih ih' => exact Nat.le_trans ih ih'
  | passing before _ behind ih => exact Nat.le_trans before (Nat.le_trans ih behind)
  | dropping _ dropped ih => exact Nat.le_trans ih dropped.index_le
  | deeper _ _ ih | recommented _ _ ih | returnValue _ ih | instantiation _ ih | block _ ih
  | array _ ih => exact ih
  | assignment _ _ _ ih => exact Nat.le_of_succ_le ih
  | object kept | expression kept => exact kept.le
  | skipped lt _ => exact Nat.le_of_lt lt
  | function named _ ih => exact Nat.le_trans (Nat.le_of_lt named.index_lt) ih
  | immediate named _ _ ih ih' =>
    exact Nat.le_trans (Nat.le_of_lt named.index_lt) (Nat.le_trans ih ih')
  | reference root rest => exact Nat.le_trans (Nat.le_of_lt root.index_lt) rest.index_le
  | call root _ ih => exact Nat.le_trans (Nat.le_of_lt root.index_lt) ih
  | invocation root _ _ rest ih ih' =>
    exact Nat.le_trans (Nat.le_of_lt root.index_lt)
      (Nat.le_trans ih (Nat.le_trans ih' rest.index_le))

theorem behind (h : Reads m n x ns y) {k : Nat} (hk : y.index ≤ k) : Reads m n x ns (y.move k) :=
  .passing (Nat.le_refl _) h hk

theorem before {j : Nat} (hj : x.index ≤ j) (h : Reads m n (x.move j) ns y) : Reads m n x ns y :=
  .passing hj h (Nat.le_refl _)

theorem cons {node : Node} (h : Reads m n x [node] y) (hs : Reads m n y ns z) :
    Reads m n x (node :: ns) z := .append h hs

/-- A token before nodes is passed with them. -/
theorem from_next (h : x.next.index < y.index ∧ Reads m n x.next ns y) :
    x.index < y.index ∧ Reads m n x ns y :=
  ⟨Nat.lt_of_succ_lt h.1, .before (Nat.le_succ _) h.2⟩

/-- So are the brackets around them. -/
theorem enclosed (h : Reads m n x.next ns y) : x.index < y.next.index ∧ Reads m n x ns y.next :=
  ⟨Nat.lt_succ_of_lt h.index_le, .before (Nat.le_succ _) (h.behind (Nat.le_succ _))⟩

end Reads

end ScriptOutline
