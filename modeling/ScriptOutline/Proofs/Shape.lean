/-
The shape of every script that can be read.

The nodes of a script keep to their places: statements stand in bodies, calls in chains,
holes in arrays.  Names are names, operators assign, tails say something, and what is kept
as trees ends where an expression ends.  What prints, binds and walks a script relies on
this without asking.
-/
import ScriptOutline.Proofs.Gives

namespace ScriptOutline

open TokenTree

namespace TokenTree

def isLeaf (test : Token → Bool) : TokenTree → Bool
  | leaf t => test t
  | group .. => false

/-- Trees outside of which nothing ends: no semicolon, comma or closing bracket, and every
colon answers a question mark before it. -/
def Flat (trees : List TokenTree) : Prop :=
  ∀ before t behind, trees = before ++ .leaf t :: behind →
    t.isPunctuation ";" = false ∧ t.isPunctuation "," = false ∧ t.isClosing = false ∧
    (t.isPunctuation ":" = true →
      before.countP (isLeaf (·.isPunctuation ":")) < before.countP (isLeaf (·.isOperator "?")))

theorem endsRest_eq_false {n : Nat} {t : Token} (h : Expression.endsRest n t = false) :
    t.isPunctuation ";" = false ∧ t.isPunctuation "," = false ∧ t.isClosing = false ∧
      (t.isPunctuation ":" = true → 0 < n) := by
  simp only [Expression.endsRest, Bool.or_eq_false_iff, Bool.and_eq_false_iff, beq_eq_false_iff_ne]
    at h
  grind

/-- How many colons a list of trees may hold behind `n` question marks. -/
theorem colons_lt_of_unended {n : Nat} {trees : List TokenTree}
    (h : Unended Expression.endsRest n trees) (before : List TokenTree) (t : Token)
    (behind : List TokenTree) (htrees : trees = before ++ .leaf t :: behind) :
    t.isPunctuation ";" = false ∧ t.isPunctuation "," = false ∧ t.isClosing = false ∧
    (t.isPunctuation ":" = true → before.countP (isLeaf (·.isPunctuation ":")) <
      n + before.countP (isLeaf (·.isOperator "?"))) := by
  induction before generalizing n trees with
  | nil =>
    subst htrees
    exact endsRest_eq_false h.1
  | cons tree before ih =>
    subst htrees
    obtain ⟨hsemicolon, hcomma, hclosing, hcolon⟩ := ih h.2 rfl
    refine ⟨hsemicolon, hcomma, hclosing, fun ht => ?_⟩
    have hlt := hcolon ht
    cases tree with
    | group => simpa [isLeaf, conditionals] using hlt
    | leaf u =>
      simp only [conditionals, TokenStream.conditionalsAfter] at hlt
      simp only [List.countP_cons, isLeaf]
      by_cases hquestion : u.isOperator "?" = true
      · have hu : u.isPunctuation ":" = false := by
          simp only [Token.isOperator, Bool.and_eq_true, beq_iff_eq] at hquestion
          simp [Token.isPunctuation, hquestion.1]
        simp only [hquestion, hu, if_true, Bool.false_eq_true, if_false] at hlt ⊢
        omega
      · by_cases hu : u.isPunctuation ":" = true
        · have hopen : 0 < n := (endsRest_eq_false h.1).2.2.2 hu
          simp only [hquestion, hu, if_true, Bool.false_eq_true, if_false] at hlt ⊢
          omega
        · simp only [hquestion, hu, Bool.false_eq_true, if_false] at hlt ⊢
          omega

theorem flat_of_unended {trees : List TokenTree} (h : Unended Expression.endsRest 0 trees) :
    Flat trees := by
  intro before t behind htrees
  simpa using colons_lt_of_unended h before t behind htrees

end TokenTree

/-- Where in a script a node stands. -/
inductive Role where
  /-- In a body. -/
  | statement
  | value
  /-- Between the brackets of an array. -/
  | element
  /-- In a chain. -/
  | link
deriving DecidableEq, Repr

/-- A path starts from a name, or in a chain from a property, and goes on with properties. -/
structure SymbolPath.Fits (role : Role) (p : SymbolPath) : Prop where
  root : if role = .link then p.root.isPropertyName = true else p.root.kind = .name
  properties : ∀ t ∈ p.properties, t.isPropertyName = true ∨ t.kind = .string

def PrimitiveKind.Fits : PrimitiveKind → Token → Prop
  | string, t => t.kind = .string
  | number, t => t.kind = .number
  | regexp, t => t.kind = .regexp
  | boolean, t => t.kind = .atom ∧ t.value ∈ ["true", "false"]
  | null, t => t.kind = .atom ∧ t.value = "null"
  | undefined, t => t.kind = .atom ∧ t.value ∉ ["true", "false", "null"]

structure FunctionHead.Fits (h : FunctionHead) : Prop where
  name : ∀ t, h.name = .named t → t.kind = .name
  parameters : ∀ t ∈ h.parameters, t.kind = .name

def TailFits (tail : Option (List TokenTree)) : Prop := ∀ trees ∈ tail, trees ≠ [] ∧ Flat trees

/-- The word of a construct, or a label with its colon. -/
def ConstructFits (keyword : Token) (trees : List TokenTree) : Prop :=
  (keyword.kind = .keyword ∧ keyword.value ∈
    ["if", "for", "while", "do", "switch", "try", "with", "throw", "continue", "break"]) ∨
  keyword.kind = .name ∧ ∃ colon rest, trees = .leaf colon :: rest ∧ colon.isPunctuation ":" = true

namespace Node

mutual
def Shaped (role : Role) : Node → Prop
  | block _ body => role = .statement ∧ ShapedAll .statement body
  | declaration _ _ name => role = .statement ∧ name.kind = .name
  | assignment _ target operator value =>
    role ≠ .link ∧ target.Fits .value ∧
    operator ∈ ["=", "+=", "-=", "*=", "/=", "%=", "<<=", ">>=", ">>>=", "&=", "|=", "^="] ∧
    Shaped .value value
  | function _ head body => role ≠ .link ∧ head.Fits ∧ ShapedAll .statement body
  | returnNothing _ => role = .statement
  | returnValue _ value => role = .statement ∧ Shaped .value value
  | call _ callee arguments => role = .link ∧ callee.Fits .link ∧ ShapedAll .value arguments
  | reference _ path tail =>
    (∀ p ∈ path, p.Fits role) ∧ TailFits tail ∧ (role = .link → tail = none)
  | invocation _ path arguments chain tail =>
    (∀ p ∈ path, p.Fits role) ∧ ShapedAll .value arguments ∧ ShapedAll .link chain ∧
    TailFits tail ∧ (role = .link → path = none ∧ chain = [] ∧ tail = none)
  | instantiation _ value => role ≠ .link ∧ Shaped .value value
  | array _ elements => role ≠ .link ∧ ShapedAll .element elements
  | object _ trees =>
    role ≠ .link ∧
    ∃ opener inside closer, trees = [.group opener inside closer] ∧
      opener.isPunctuation "\x7b" = true
  | primitive _ kind token => role ≠ .link ∧ kind.Fits token
  | expression _ trees => role ≠ .link ∧ Flat trees ∧ (trees = [] → role = .element)
  | immediate _ head body arguments =>
    role ≠ .link ∧ head.Fits ∧ ShapedAll .statement body ∧ ShapedAll .value arguments
  | skipped _ keyword trees => role = .statement ∧ ConstructFits keyword trees

def ShapedAll (role : Role) : List Node → Prop
  | [] => True
  | n :: ns => Shaped role n ∧ ShapedAll role ns
end

theorem shapedAll_iff {role : Role} {ns : List Node} :
    ShapedAll role ns ↔ ∀ n ∈ ns, Shaped role n := by
  induction ns with
  | nil => simp [ShapedAll]
  | cons n ns ih => simp [ShapedAll, ih]

theorem shapedAll_append {role : Role} {ms ns : List Node} :
    ShapedAll role (ms ++ ns) ↔ ShapedAll role ms ∧ ShapedAll role ns := by
  simp only [shapedAll_iff, List.forall_mem_append]

theorem shapedAll_flatten {role : Role} {nss : List (List Node)}
    (h : ∀ ns ∈ nss, ShapedAll role ns) : ShapedAll role nss.flatten := by
  simp only [shapedAll_iff, List.mem_flatten] at h ⊢
  rintro n ⟨ns, hns, hn⟩
  exact h ns hns n hn

/-- A value may stand wherever no link of a chain has to. -/
theorem Shaped.of_value {n : Node} (h : n.Shaped .value) {role : Role} (hrole : role ≠ .link) :
    n.Shaped role := by
  have hfits (p : SymbolPath) (hp : p.Fits .value) : p.Fits role :=
    ⟨by simpa [hrole] using hp.root, hp.properties⟩
  cases n <;> simp_all [Shaped]

@[simp] theorem shaped_withComments (role : Role) (c : List Comment) (n : Node) :
    (n.withComments c).Shaped role ↔ n.Shaped role := by
  cases n <;> rfl

end Node

/-- The readers one level deeper give nodes in their places. -/
structure Shapes (inner : Readers) : Prop where
  statement : Gives anywhere inner.statement (Node.ShapedAll .statement)
  expression : Gives anywhere inner.expression (Node.Shaped .value)
  value : Gives anywhere inner.value (Node.Shaped .value)

/-! ## Expressions -/

namespace Expression

open Reader Node

variable {P : Reading → Prop} {inner : Readers} {t : Token}

theorem rest_gives : Gives P rest (Unended endsRest 0) :=
  (onStream_gives (S := anywhere) TokenStream.gather_gives).conseq (fun _ _ => trivial) fun _ h => h

theorem rest_ne_nil (h : endsRest 0 t = false) : Gives (At t) rest (· ≠ []) :=
  onStream_gives (TokenStream.gather_ne_nil h)

theorem endsRest_of_endsExpression (h : t.endsExpression = false) (n : Nat) :
    endsRest n t = false := by
  simp only [Token.endsExpression, Token.isTerminator, Bool.or_eq_false_iff] at h
  simp [endsRest, h]

theorem continuation_gives : Gives P continuation (Unended endsRest 0) :=
  token_gives fun _ => .ite (fun _ => .pure trivial) fun _ => rest_gives

theorem tail_gives : Gives P tail TailFits := by
  refine token_gives fun t => .ite (fun _ => .pure (by simp [TailFits])) fun hends => ?_
  have hends : endsRest 0 t = false := endsRest_of_endsExpression (by simpa using hends) 0
  refine ((rest_ne_nil hends).and rest_gives).bind fun trees htrees => .skip fun _ => .pure ?_
  intro _ h
  cases h
  exact ⟨htrees.1, flat_of_unended htrees.2⟩

/-- Trees behind a token or a group that begins an expression. -/
theorem expression_shaped {comments : List Comment} {tree : TokenTree} {trees : List TokenTree}
    (hfirst : endsRest 0 tree.first = false) (hopen : tree.conditionals 0 = 0)
    (h : Unended endsRest 0 trees) : (Node.expression comments (tree :: trees)).Shaped .value := by
  refine ⟨by decide, flat_of_unended ⟨hfirst, ?_⟩, fun hnil => nomatch hnil⟩
  rw [hopen]
  exact h

/-- The comma behind an item of a list, or the bracket behind the last one, leaves the item
as it is. -/
theorem separated_gives {α : Type} {Q : α → Prop} {a : α} (ha : Q a) (next : Reader Token)
    (closing : String) :
    Gives P
      (do
        if (← next).isPunctuation "," then
          let _ ← advance
        else
          let _ ← expectPunctuation closing
        return some a)
      fun o => ∀ b ∈ o, Q b := by
  have hitem : ∀ b ∈ some a, Q b := by simpa using ha
  refine .skip fun _ => .ite (fun _ => ?_) fun _ => ?_
  · exact .skip fun _ => .pure hitem
  · exact .skip fun _ => .pure hitem

theorem argument_gives (h : Shapes inner) :
    Gives P (argument inner) fun o => ∀ n ∈ o, n.Shaped .value := by
  refine token_gives fun t => .ite (fun _ => .pure (by simp)) fun _ => ?_
  exact (h.expression.from).bind fun node hnode => separated_gives hnode token ")"

theorem arguments_gives (h : Shapes inner) : Gives P (arguments inner) (ShapedAll .value) := by
  refine .skip fun _ => (many_gives (argument_gives h)).bind fun nodes hnodes => .skip fun _ => ?_
  exact .pure (shapedAll_iff.2 hnodes)

theorem element_gives (h : Shapes inner) :
    Gives P (element inner) fun o => ∀ n ∈ o, n.Shaped .element := by
  refine token_gives fun t => .ite (fun _ => .pure (by simp)) fun _ => ?_
  refine .ite (fun _ => ?_) fun _ => ?_
  · refine .skip fun _ => .pure fun n hn => ?_
    cases hn
    exact ⟨by decide, flat_of_unended trivial, fun _ => rfl⟩
  · refine (h.expression.from).bind fun node hnode => ?_
    have hnode : node.Shaped .element := hnode.of_value (by decide)
    exact separated_gives hnode token "]"

theorem elements_gives (h : Shapes inner) : Gives P (elements inner) (ShapedAll .element) := by
  refine .skip fun _ => (many_gives (element_gives h)).bind fun nodes hnodes => .skip fun _ => ?_
  exact .pure (shapedAll_iff.2 hnodes)

theorem block_gives (h : Shapes inner) : Gives P (block inner) (ShapedAll .statement) := by
  refine (many_gives (Q := ShapedAll .statement) ?_).bind fun nss hnss =>
    .pure (shapedAll_flatten hnss)
  refine token_gives fun t => .ite (fun _ => .pure (by simp)) fun _ => ?_
  exact (h.statement.from).bind fun ns hns => .pure (by simpa using hns)

theorem braces_gives (h : Shapes inner) : Gives P (braces inner) (ShapedAll .statement) :=
  .skip fun _ => (block_gives h).bind fun _ hbody => .skip fun _ => .pure hbody

theorem parameter_gives : Gives P parameter fun o => ∀ t ∈ o, t.kind = .name := by
  refine token_gives fun t => .ite (fun _ => .pure (by simp)) fun _ => ?_
  refine expect_gives fun name hname => ?_
  have hname : name.kind = .name := by simpa [TokenPattern.accepts] using hname
  exact separated_gives (Q := fun t : Token => t.kind = .name) hname advance ")"

theorem functionName_gives : Gives P functionName fun n => ∀ t, n = .named t → t.kind = .name := by
  refine advance_gives fun t => .ite (fun hname => ?_) fun _ => ?_
  · refine .skip fun _ => .pure fun u hu => ?_
    cases hu
    simpa using hname
  · refine .skip fun _ => .skip fun _ => .pure fun u hu => ?_
    cases hu

theorem function_gives (h : Shapes inner) :
    Gives P (function inner) fun made => made.1.Fits ∧ ShapedAll .statement made.2 := by
  refine .skip fun _ => functionName_gives.bind fun name hname => .skip fun _ => ?_
  refine (many_gives parameter_gives).bind fun parameters hparameters => .skip fun _ => ?_
  exact (braces_gives h).bind fun body hbody => .pure ⟨⟨hname, hparameters⟩, hbody⟩

theorem calledOrNot_gives (h : Shapes inner) (comments : List Comment) {head : FunctionHead}
    (hhead : head.Fits) {body : List Node} (hbody : ShapedAll .statement body) (opened : Bool) :
    Gives P (calledOrNot inner comments head body opened) (Shaped .value) := by
  refine token_gives fun t => .ite (fun _ => ?_) fun _ => ?_
  · refine (arguments_gives h).bind fun arguments harguments => ?_
    have hnode : (Node.immediate comments head body arguments).Shaped .value :=
      ⟨by decide, hhead, hbody, harguments⟩
    refine .ite (fun _ => ?_) fun _ => ?_
    · exact .skip fun _ => .skip fun _ => .pure hnode
    · exact .skip fun _ => .pure hnode
  · have hnode : (Node.function comments head body).Shaped .value := ⟨by decide, hhead, hbody⟩
    refine .skip fun _ => .ite (fun _ => ?_) fun _ => .pure hnode
    exact .skip fun _ => .skip fun _ => .pure hnode

theorem immediate_gives (h : Shapes inner) : Gives P (immediate inner) (Shaped .value) := by
  rw [immediate_eq]
  refine .skip fun lead => .skip fun keyword => (function_gives h).bind fun made hmade => ?_
  obtain ⟨head, body⟩ := made
  refine .skip fun closed => ?_
  have hcalled {P : Reading → Prop} := calledOrNot_gives (P := P) h
    (lead.comments ++ keyword.comments) hmade.1 hmade.2 (lead.isPunctuation "(" && !closed)
  exact .ite (fun _ => .skip fun _ => hcalled) fun _ => hcalled

def Property.Fits : Property → Prop
  | .name t => t.isPropertyName = true ∨ t.kind = .string
  | .computed _ => True

theorem stringKey?_kind {tree : TokenTree} {key : Token} (h : stringKey? tree = some key) :
    key.kind = .string := by
  unfold stringKey? at h
  split at h
  · split at h
    · rename_i hkind
      cases h
      simpa using hkind
    · cases h
  · cases h

theorem property_gives : Gives P property fun o => ∀ p ∈ o, p.Fits := by
  refine token_gives fun t => .ite (fun _ => advance_gives fun name => ?_) fun _ => ?_
  · refine .ite (fun hname => .skip fun _ => .pure ?_) fun _ => .throw
    intro p hp
    cases hp
    exact .inl hname
  · refine .ite (fun _ => .skip fun tree => ?_) fun _ => .pure (by simp)
    cases hkey : stringKey? tree with
    | none => exact .pure (by simp [Property.Fits])
    | some key => exact .pure (by simp [Property.Fits, stringKey?_kind hkey])

theorem properties_gives : Gives P properties fun ps => ∀ p ∈ ps, p.Fits := by
  refine .collect (fun known => .ite (fun _ => ?_) fun _ => .pure (by simp)) true
  refine property_gives.bind fun o ho => ?_
  match o, ho with
  | none, _ => exact .pure (by simp)
  | some (.name t), ho => exact .pure (by simpa using ho)
  | some (.computed t), ho => exact .pure (by simpa using ho)

theorem pathOf_fits {root : Token} {ps : List Property} {path : SymbolPath}
    (h : pathOf root ps = .ok path) (hps : ∀ p ∈ ps, p.Fits) :
    path.root = root ∧ ∀ t ∈ path.properties, t.isPropertyName = true ∨ t.kind = .string := by
  obtain ⟨hroot, rfl⟩ := pathOf_eq_ok h
  exact ⟨hroot, fun t ht => hps (.name t) (List.mem_map_of_mem ht)⟩

/-- The path at a token starts from it. -/
theorem path_gives (role : Role)
    (ht : if role = .link then t.isPropertyName = true else t.kind = .name) :
    Gives (At t) path fun o => ∀ p ∈ o, p.Fits role := by
  refine token_gives_at (.skip fun _ => properties_gives.bind fun ps hps => ?_)
  cases hpath : pathOf t ps with
  | error opener => exact .skip fun _ => .pure (by simp)
  | ok path =>
    obtain ⟨rfl, hproperties⟩ := pathOf_fits hpath hps
    refine .pure fun p hp => ?_
    cases hp
    exact ⟨ht, hproperties⟩

theorem linkFrom_gives (h : Shapes inner) (ht : t.isPropertyName = true) (comments : List Comment) :
    Gives (At t) (linkFrom inner comments) fun o => ∀ n ∈ o, n.Shaped .link := by
  refine (path_gives .link ht).bind fun path hpath => .skip fun _ => .ite (fun _ => ?_) fun _ => ?_
  · refine (arguments_gives h).bind fun arguments harguments => ?_
    cases path with
    | some callee =>
      refine .pure fun n hn => ?_
      cases hn
      exact ⟨rfl, hpath callee rfl, harguments⟩
    | none =>
      refine .pure fun n hn => ?_
      cases hn
      exact ⟨by simp, harguments, trivial, by simp [TailFits], by simp⟩
  · refine .pure fun n hn => ?_
    cases hn
    exact ⟨hpath, by simp [TailFits], by simp⟩

theorem link_gives (h : Shapes inner) : Gives P (link inner) fun o => ∀ n ∈ o, n.Shaped .link := by
  rw [link_eq]
  refine token_gives fun t => .ite (fun _ => advance_gives fun first => ?_) fun _ => .pure (by simp)
  exact .ite (fun hfirst => linkFrom_gives h hfirst _) fun _ => .throw

theorem referenceTo_gives (h : Shapes inner) (comments : List Comment) {path : Option SymbolPath}
    (hpath : ∀ p ∈ path, p.Fits .value) :
    Gives P (referenceTo inner comments path) (Shaped .value) := by
  refine token_gives fun t => .ite (fun _ => ?_) fun _ => ?_
  · refine (arguments_gives h).bind fun arguments harguments => ?_
    refine (many_gives (link_gives h)).bind fun chain hchain => tail_gives.bind fun tail htail => ?_
    exact .pure ⟨hpath, harguments, shapedAll_iff.2 hchain, htail, fun hlink => nomatch hlink⟩
  · exact tail_gives.bind fun tail htail => .pure ⟨hpath, htail, fun hlink => nomatch hlink⟩

theorem primitiveKind?_fits {kind : PrimitiveKind} (h : primitiveKind? t = some kind) :
    kind.Fits t := by
  unfold primitiveKind? at h
  split at h
  case h_1 hkind | h_2 hkind | h_3 hkind =>
    cases h
    exact hkind
  case h_4 hkind =>
    split at h
    · rename_i hvalue
      cases h
      exact ⟨hkind, by simpa using hvalue⟩
    · split at h
      · rename_i hvalue
        cases h
        exact ⟨hkind, by simpa using hvalue⟩
      · rename_i hboolean hnull
        cases h
        refine ⟨hkind, ?_⟩
        simp only [Bool.or_eq_true, beq_iff_eq, not_or] at hboolean hnull
        simp [hboolean, hnull]
  case h_5 => cases h

theorem kind_of_primitiveKind? {kind : PrimitiveKind} (h : primitiveKind? t = some kind) :
    t.kind ≠ .punctuation ∧ t.kind ≠ .operator ∧ t.kind ≠ .eof := by
  have hfits := primitiveKind?_fits h
  cases kind <;> simp_all [PrimitiveKind.Fits]

theorem endsRest_of_kind (hpunctuation : t.kind ≠ .punctuation) (heof : t.kind ≠ .eof) (n : Nat) :
    endsRest n t = false := by
  simp [endsRest, Token.isEof, Token.isClosing, Token.isPunctuation, hpunctuation, heof]

theorem endsRest_of_isPunctuation {value : String} (h : t.isPunctuation value = true)
    (hvalue : value ∈ ["(", "\x7b"]) : endsRest 0 t = false := by
  simp only [Token.isPunctuation, Bool.and_eq_true, beq_iff_eq] at h
  obtain ⟨hkind, rfl⟩ := h
  simp only [List.mem_cons, List.not_mem_nil, or_false] at hvalue
  rcases hvalue with hvalue | hvalue <;>
    simp [endsRest, Token.isEof, Token.isClosing, Token.isPunctuation, hkind, hvalue]

theorem primitive_gives {kind : PrimitiveKind} (h : primitiveKind? t = some kind) :
    Gives P (primitive kind t) (Shaped .value) := by
  refine .skip fun _ => .ite (fun _ => .pure ⟨by decide, primitiveKind?_fits h⟩) fun _ => ?_
  obtain ⟨hpunctuation, hoperator, heof⟩ := kind_of_primitiveKind? h
  refine rest_gives.bind fun trees htrees => .pure (expression_shaped ?_ ?_ htrees)
  · exact endsRest_of_kind hpunctuation heof 0
  · simp [conditionals, TokenStream.conditionalsAfter, Token.isOperator, Token.isPunctuation,
      hpunctuation, hoperator]

theorem value_gives (h : Shapes inner) : Gives P (value inner) (Shaped .value) := by
  refine token_gives fun t => ?_
  cases hkind : primitiveKind? t with
  | some kind => exact primitive_gives hkind
  | none =>
  refine .ite (fun _ => ?_) fun _ => .ite (fun hround => ?_) fun _ => .ite (fun _ => ?_) fun _ => ?_
  · refine (function_gives h).bind fun made hmade => .skip fun _ => .pure ?_
    exact ⟨by decide, hmade.1, hmade.2⟩
  · refine group_gives.bind fun head hhead => continuation_gives.bind fun trees htrees => .pure ?_
    obtain ⟨inside, closer, rfl⟩ := hhead
    exact expression_shaped (endsRest_of_isPunctuation hround (by decide)) rfl htrees
  · exact (elements_gives h).bind fun nodes hnodes => .skip fun _ => .pure ⟨by decide, hnodes⟩
  refine .ite (fun hcurly => ?_) fun _ => .ite (fun hname => ?_) fun _ => .ite (fun _ => ?_)
    fun _ => .ite (fun _ => .throw) fun _ => .throw
  · refine group_gives.bind fun head hhead => continuation_gives.bind fun trees htrees => .pure ?_
    obtain ⟨inside, closer, rfl⟩ := hhead
    split
    · exact ⟨by decide, t, inside, closer, rfl, hcurly⟩
    · exact expression_shaped (endsRest_of_isPunctuation hcurly (by decide)) rfl htrees
  · have hname : t.kind = .name := by simpa using hname
    exact (path_gives .value hname).bind fun path hpath => referenceTo_gives h _ hpath
  · exact .skip fun _ => (h.expression.from).bind fun node hnode => .pure ⟨by decide, hnode⟩

theorem assignmentOrReference_gives (h : Shapes inner) (ht : t.kind = .name) (first : Token) :
    Gives (At t) (assignmentOrReference inner first) (Shaped .value) := by
  refine (path_gives .value ht).bind fun path hpath => token_gives fun operator => ?_
  cases path with
  | none => exact referenceTo_gives h _ hpath
  | some target =>
    refine .ite (fun hoperator => ?_) fun _ => referenceTo_gives h _ hpath
    have hassigns : operator.kind = .operator ∧ operator.value ∈ Token.assignmentOperators := by
      simpa [Token.isAssignment] using hoperator
    refine .skip fun _ => (h.expression.from).bind fun node hnode => .pure ?_
    exact ⟨by decide, hpath target rfl, hassigns.2, hnode⟩

theorem read_gives (h : Shapes inner) : Gives P (read inner) (Shaped .value) := by
  rw [read_eq]
  refine token_gives fun t => looksPast_gives fun _ => ?_
  refine .ite (fun _ => immediate_gives h) fun _ => ?_
  refine .ite (fun hname => assignmentOrReference_gives h (by simpa using hname) t) fun _ => ?_
  refine .ite (fun hleads => .skip fun _ => ?_) fun _ => h.value.from
  have hoperator : t.kind = .operator ∧ t.value ∈ Token.leadingOperators := by
    simpa [Token.isLeadingOperator] using hleads
  have hquestion : t.value ≠ "?" := fun hvalue => absurd (hvalue ▸ hoperator.2) (by decide)
  refine rest_gives.bind fun trees htrees => .pure (expression_shaped ?_ ?_ htrees)
  · exact endsRest_of_kind (t := t) (by simp [hoperator.1]) (by simp [hoperator.1]) 0
  · simp [conditionals, TokenStream.conditionalsAfter, Token.isOperator, Token.isPunctuation,
      hoperator.1, hquestion]

end Expression

/-! ## Statements -/

/-- The construct at a label begins with the colon. -/
theorem Construct.read_gives {inner : Readers} {t : Token} (ht : t.kind = .name) :
    Gives (Reader.At t) (Construct.read inner) fun trees =>
      ∃ colon rest, trees = .leaf colon :: rest ∧ colon.isPunctuation ":" = true := by
  refine Reader.token_gives_at (.skip fun _ => .ite (fun _ => ?_) fun hname => ?_)
  · refine Reader.expect_gives fun colon hcolon => .skip fun _ => .skip fun trees => .pure ?_
    exact ⟨colon, trees, rfl, hcolon⟩
  · exact absurd (by simp [ht]) hname

theorem Construct.node_gives {inner : Readers} {t : Token}
    (ht : t.opensConstruct = true ∨ t.kind = .name) :
    Gives (Reader.At t) (Construct.node inner) (Node.Shaped .statement) := by
  refine Reader.token_gives_at ?_
  rcases ht with ht | ht
  · have hopens : t.kind = .keyword ∧ t.value ∈ Token.skippedKeywords := by
      simpa [Token.opensConstruct] using ht
    exact .skip fun trees => .skip fun _ => .pure ⟨rfl, .inl hopens⟩
  · exact (Construct.read_gives ht).bind fun trees htrees => .skip fun _ =>
      .pure ⟨rfl, .inr ⟨ht, htrees⟩⟩

namespace Statement

open Reader Node

variable {P : Reading → Prop} {inner : Readers} {t : Token}

theorem afterComma_gives {α : Type} {item : Reader α} {Q : α → Prop} (h : Gives anywhere item Q) :
    Gives P (afterComma item) fun o => ∀ a ∈ o, Q a := by
  refine .skip fun _ => .ite (fun _ => .skip fun _ => ?_) fun _ => .pure (by simp)
  exact h.bind fun a ha => .pure (by simpa using ha)

theorem expressions_gives (h : Shapes inner) :
    Gives P (expressions inner) (ShapedAll .statement) := by
  refine (h.expression.from).bind fun first hfirst => ?_
  refine (many_gives (afterComma_gives h.expression)).bind fun more hmore => .skip fun _ => .pure ?_
  exact ⟨hfirst.of_value (by decide),
    shapedAll_iff.2 fun n hn => (hmore n hn).of_value (by decide)⟩

/-- A name that is declared with a value is declared, then assigned. -/
theorem declared_shaped (word : DeclarationWord) (leading comments : List Comment) {name : Token}
    (hname : name.kind = .name) {value : Node} (hvalue : value.Shaped .value) :
    ShapedAll .statement
      [.declaration leading word name, .assignment comments { root := name } "=" value] := by
  have htarget : SymbolPath.Fits .value { root := name } := ⟨by simpa using hname, by simp⟩
  exact ⟨⟨rfl, hname⟩, ⟨by decide, htarget, by decide, hvalue⟩, trivial⟩

theorem functionDeclaration_gives (h : Shapes inner) :
    Gives P (functionDeclaration inner) (ShapedAll .statement) := by
  refine token_gives fun keyword => peek_gives fun name => .ite (fun _ => ?_) fun hname => ?_
  · exact .throw
  · have hname : name.kind = .name := by simpa using hname
    refine (Expression.function_gives h).bind fun made hmade => .pure ?_
    exact declared_shaped _ _ _ hname ⟨by decide, hmade.1, hmade.2⟩

theorem declarator_gives (h : Shapes inner) (word : DeclarationWord) (leading : List Comment) :
    Gives P (declarator inner word leading) (ShapedAll .statement) := by
  refine expect_gives fun name hname => ?_
  have hname : name.kind = .name := by simpa [TokenPattern.accepts] using hname
  refine .skip fun _ => .ite (fun _ => ?_) fun _ => .pure ⟨⟨rfl, hname⟩, trivial⟩
  refine .skip fun _ => (h.expression.from).bind fun value hvalue => .pure ?_
  exact declared_shaped _ _ _ hname hvalue

theorem declarations_gives (h : Shapes inner) :
    Gives P (declarations inner) (ShapedAll .statement) := by
  refine .skip fun keyword => .skip fun _ => (declarator_gives h _ _).bind fun first hfirst => ?_
  refine (many_gives (afterComma_gives (declarator_gives h _ []))).bind fun more hmore => ?_
  exact .skip fun _ => .pure (shapedAll_append.2 ⟨hfirst, shapedAll_flatten hmore⟩)

theorem returned_shaped (comments : List Comment) {value : Node} (hvalue : value.Shaped .value)
    {more : List Node} (hmore : ∀ n ∈ more, n.Shaped .value) :
    ShapedAll .statement (returned comments value more) := by
  induction more generalizing comments value with
  | nil => exact ⟨⟨rfl, hvalue⟩, trivial⟩
  | cons next more ih =>
    obtain ⟨hnext, hmore⟩ := List.forall_mem_cons.1 hmore
    refine ⟨?_, ih [] hnext hmore⟩
    split
    · exact hvalue.of_value (by decide)
    · exact (shaped_withComments _ _ _).2 (hvalue.of_value (by decide))

theorem returns_gives (h : Shapes inner) : Gives P (returns inner) (ShapedAll .statement) := by
  refine .skip fun keyword => .skip fun t => .ite (fun _ => ?_) fun _ => ?_
  · exact .skip fun _ => .pure ⟨rfl, trivial⟩
  · refine (h.expression.from).bind fun first hfirst => ?_
    refine (many_gives (afterComma_gives h.expression)).bind fun more hmore => ?_
    exact .skip fun _ => .pure (returned_shaped _ hfirst hmore)

theorem read_gives (h : Shapes inner) : Gives P (read inner) (ShapedAll .statement) := by
  refine token_gives fun t => ?_
  rw [Construct.isLabel_eq]
  refine looksPast_gives fun _ => ?_
  have hconstruct (ht : t.opensConstruct = true ∨ t.kind = .name) :
      Gives (At t) (do return [← Construct.node inner]) (ShapedAll .statement) :=
    (Construct.node_gives ht).bind fun node hnode => .pure ⟨hnode, trivial⟩
  cases ht : t.kind with
  | keyword =>
    refine .ite (fun _ => functionDeclaration_gives h) fun _ => .ite (fun _ => declarations_gives h)
      fun _ => .ite (fun _ => returns_gives h) fun _ => .ite (fun _ => ?_) fun _ => ?_
    · exact .skip fun _ => .skip fun _ => .pure trivial
    · exact .ite (fun hopens => hconstruct (.inl hopens)) fun _ => .throw
  | punctuation =>
    refine .ite (fun _ => ?_) fun _ => .ite (fun _ => .skip fun _ => .pure trivial) fun _ =>
      .ite (fun _ => expressions_gives h) fun _ => .throw
    exact (Expression.braces_gives h).bind fun body hbody => .pure ⟨⟨rfl, hbody⟩, trivial⟩
  | name =>
    exact .ite (fun _ => hconstruct (.inr ht)) fun _ => expressions_gives h
  | atom | string | number | regexp | operator => exact expressions_gives h
  | eof => exact .throw

end Statement

theorem shapes_within (depth : Nat) : Shapes (.within depth) := by
  have hdeep {α : Type} {Q : α → Prop} : Gives anywhere (Reader.tooDeep : Reader α) Q :=
    .skip fun _ => .throw
  induction depth with
  | zero => exact ⟨hdeep, hdeep, hdeep⟩
  | succ depth ih =>
    exact ⟨Reader.nested_gives (Statement.read_gives ih),
      Reader.nested_gives (Expression.read_gives ih),
      Reader.nested_gives (Expression.value_gives ih)⟩

/-- Whatever a script was read from, its nodes keep to their places. -/
theorem Script.shaped_ofFeed {feed : TokenFeed} {s : Script} (h : Script.ofFeed feed = .ok s) :
    Node.ShapedAll .statement s.body := by
  have hread : Gives anywhere Script.read (Node.ShapedAll .statement) :=
    (Expression.block_gives (shapes_within nestingLimit)).bind fun body hbody => .skip fun _ =>
      .ite (fun _ => .pure hbody) fun _ => .throw
  unfold ofFeed at h
  split at h
  · rename_i body r hrun
    cases h
    exact hread _ _ _ trivial hrun
  · cases h

/-- A choice between the end of a chain and an array with a hole. -/
theorem Script.shaped_ofFeed_choice :
    ∃ s, Script.ofFeed (.ofText "var a = f(1).g ? b : [, c]") = .ok s ∧ s.isEmpty = false ∧
      Node.ShapedAll .statement s.body := by
  have hfull : (Script.ofFeed (.ofText "var a = f(1).g ? b : [, c]")).toOption.any
      (! ·.isEmpty) = true := by decide +kernel
  cases h : Script.ofFeed (.ofText "var a = f(1).g ? b : [, c]") with
  | error e =>
    rw [h] at hfull
    cases hfull
  | ok s =>
    rw [h] at hfull
    exact ⟨s, rfl, by simpa [Except.toOption] using hfull, Script.shaped_ofFeed h⟩

end ScriptOutline
