/-
Where the comments in front of a statement go.

Whatever reads an expression gives a node that begins with the comments of the token at which
it began, `Leads`; so does every way of reading a statement.  What a declarator declares and
what it assigns carry the same comments.
-/
import ScriptOutline.Proofs.Shape

namespace ScriptOutline

namespace Node

/-- The comments of the node begin with those of the token. -/
def LedBy (t : Token) (n : Node) : Prop := t.comments <+: n.comments

theorem ledBy_of_eq {t : Token} {n : Node} (h : n.comments = t.comments) : n.LedBy t :=
  ⟨[], by rw [List.append_nil, h]⟩

end Node

/-- The readers one level deeper keep the comments at which they begin. -/
structure Led (inner : Readers) : Prop where
  expression : ∀ t, Gives (Reader.At t) inner.expression (Node.LedBy t)
  value : ∀ t, Gives (Reader.At t) inner.value (Node.LedBy t)

namespace Expression

open Reader Node

variable {P : Reading → Prop} {inner : Readers} {t : Token}

theorem immediate_led : Gives (At t) (immediate inner) (LedBy t) := by
  rw [immediate_eq]
  refine token_gives_at (.skip fun keyword => .skip fun made => .skip fun closed => ?_)
  have hmerged (n : Node) (hn : n.comments = t.comments ++ keyword.comments) : n.LedBy t := by
    rw [LedBy, hn]
    exact List.prefix_append _ _
  have hcalled {P : Reading → Prop} (opened : Bool) : Gives P
      (calledOrNot inner (t.comments ++ keyword.comments) made.1 made.2 opened) (LedBy t) := by
    refine .skip fun _ => .ite (fun _ => .skip fun arguments => ?_) fun _ => .skip fun _ => ?_
    · refine .ite (fun _ => .skip fun _ => ?_) fun _ => ?_
      · exact .skip fun _ => .pure (hmerged _ rfl)
      · exact .skip fun _ => .pure (hmerged _ rfl)
    · refine .ite (fun _ => .skip fun _ => ?_) fun _ => .pure (hmerged _ rfl)
      exact .skip fun _ => .pure (hmerged _ rfl)
  exact .ite (fun _ => .skip fun _ => hcalled _) fun _ => hcalled _

theorem referenceTo_led (path : Option SymbolPath) :
    Gives P (referenceTo inner t.comments path) (LedBy t) := by
  refine .skip fun _ => .ite (fun _ => .skip fun _ => .skip fun _ => ?_) fun _ => ?_
  · exact .skip fun _ => .pure (ledBy_of_eq rfl)
  · exact .skip fun _ => .pure (ledBy_of_eq rfl)

theorem primitive_led (kind : PrimitiveKind) : Gives P (primitive kind t) (LedBy t) := by
  refine .skip fun _ => .ite (fun _ => .pure (ledBy_of_eq rfl)) fun _ => ?_
  exact .skip fun _ => .pure (ledBy_of_eq rfl)

theorem value_led : Gives (At t) (value inner) (LedBy t) := by
  refine token_gives_at ?_
  cases primitiveKind? t with
  | some kind => exact primitive_led kind
  | none =>
  refine .ite (fun _ => ?_) fun _ => .ite (fun _ => ?_) fun _ => .ite (fun _ => ?_) fun _ => ?_
  · exact .skip fun _ => .skip fun _ => .pure (ledBy_of_eq rfl)
  · exact .skip fun _ => .skip fun _ => .pure (ledBy_of_eq rfl)
  · exact .skip fun _ => .skip fun _ => .pure (ledBy_of_eq rfl)
  refine .ite (fun _ => ?_) fun _ => .ite (fun _ => ?_) fun _ => .ite (fun _ => ?_)
    fun _ => .ite (fun _ => .throw) fun _ => .throw
  · refine .skip fun head => .skip fun trees => .pure ?_
    split
    · exact ledBy_of_eq rfl
    · exact ledBy_of_eq rfl
  · exact .skip fun path => referenceTo_led path
  · exact .skip fun _ => .skip fun _ => .pure (ledBy_of_eq rfl)

theorem assignmentOrReference_led : Gives P (assignmentOrReference inner t) (LedBy t) := by
  refine .skip fun path => .skip fun operator => ?_
  cases path with
  | none => exact referenceTo_led none
  | some target =>
    refine .ite (fun _ => .skip fun _ => ?_) fun _ => referenceTo_led _
    exact .skip fun _ => .pure (ledBy_of_eq rfl)

theorem read_led (h : Led inner) : Gives (At t) (read inner) (LedBy t) := by
  rw [read_eq]
  refine token_gives_at (looksPast_gives fun _ => .ite (fun _ => immediate_led) fun _ => ?_)
  refine .ite (fun _ => assignmentOrReference_led) fun _ => .ite (fun _ => ?_) fun _ => h.value t
  exact .skip fun _ => .skip fun _ => .pure (ledBy_of_eq rfl)

end Expression

theorem led_within (depth : Nat) : Led (.within depth) := by
  induction depth with
  | zero => exact ⟨fun _ => .skip fun _ => .throw, fun _ => .skip fun _ => .throw⟩
  | succ depth ih =>
    exact ⟨fun _ => Reader.nested_gives_at (Expression.read_led ih),
      fun _ => Reader.nested_gives_at Expression.value_led⟩

structure Declarator where
  comments : List Comment
  word : DeclarationWord
  name : Token
  value : Option Node

def Declarator.nodes (d : Declarator) : List Node :=
  .declaration d.comments d.word d.name ::
    (d.value.map (.assignment d.comments { root := d.name } "=")).toList

namespace Statement

open Reader Node

/-- The declarators of one statement: the first has the comments of the keyword in front of
those of its name. -/
def Declares (t : Token) (nodes : List Node) : Prop :=
  ∃ (d : Declarator) (ds : List Declarator), nodes = d.nodes ++ ds.flatMap Declarator.nodes ∧
    d.comments = t.comments ++ d.name.comments ∧ ∀ e ∈ ds, e.comments = e.name.comments

/-- The function that is declared, and its assignment, have the comments of the keyword. -/
def DeclaresFunction (t : Token) (nodes : List Node) : Prop :=
  ∃ d : Declarator, nodes = d.nodes ∧ d.comments = t.comments ∧ d.value.isSome = true

/-- What becomes of the comments of the first token of a statement. -/
structure KeepsComments (t : Token) (nodes : List Node) : Prop where
  led : ∀ first ∈ nodes.head?, first.LedBy t
  declares : t.isKeyword "var" = true ∨ t.isKeyword "let" = true → Declares t nodes
  declaresFunction : t.isKeyword "function" = true → DeclaresFunction t nodes

variable {P : Reading → Prop} {inner : Readers} {t : Token} {nodes : List Node}

theorem KeepsComments.of_kind (hkind : t.kind ≠ .keyword)
    (h : ∀ first ∈ nodes.head?, first.LedBy t) : KeepsComments t nodes := by
  have hword (value : String) : t.isKeyword value = false := by simp [Token.isKeyword, hkind]
  refine ⟨h, fun hdeclares => ?_, fun hfunction => ?_⟩
  · simp [hword] at hdeclares
  · simp [hword] at hfunction

theorem expressions_led (h : Led inner) :
    Gives (At t) (expressions inner) fun nodes => ∀ first ∈ nodes.head?, first.LedBy t := by
  refine (h.expression t).bind fun first hfirst => .skip fun more => .skip fun _ => .pure ?_
  simpa using hfirst

theorem returned_led (value : Node) (more : List Node) :
    ∀ first ∈ (returned t.comments value more).head?, first.LedBy t := by
  cases more with
  | nil => simp [returned, LedBy, Node.comments]
  | cons next more =>
    intro first hfirst
    rw [returned, List.head?_cons, Option.mem_def, Option.some.injEq] at hfirst
    subst hfirst
    split
    · rename_i hempty
      rw [LedBy, List.isEmpty_iff.1 hempty]
      exact List.nil_prefix
    · exact ledBy_of_eq (comments_withComments _ _)

theorem returns_led :
    Gives (At t) (returns inner) fun nodes => ∀ first ∈ nodes.head?, first.LedBy t := by
  refine token_gives_at (.skip fun next => .ite (fun _ => .skip fun _ => .pure ?_) fun _ => ?_)
  · simp [LedBy, Node.comments]
  · exact .skip fun first => .skip fun more => .skip fun _ => .pure (returned_led first more)

theorem declarator_declares (word : DeclarationWord) (leading : List Comment) :
    Gives P (declarator inner word leading) fun nodes =>
      ∃ d : Declarator, nodes = d.nodes ∧ d.comments = leading ++ d.name.comments := by
  refine .skip fun name => .skip fun next => .ite (fun _ => ?_) fun _ => ?_
  · exact .skip fun _ => .skip fun value =>
      .pure ⟨⟨leading ++ name.comments, word, name, some value⟩, rfl, rfl⟩
  · exact .pure ⟨⟨leading ++ name.comments, word, name, none⟩, rfl, rfl⟩

theorem exists_declarators {more : List (List Node)}
    (h : ∀ nodes ∈ more, ∃ d : Declarator, nodes = d.nodes ∧ d.comments = [] ++ d.name.comments) :
    ∃ ds : List Declarator, more.flatten = ds.flatMap Declarator.nodes ∧
      ∀ e ∈ ds, e.comments = e.name.comments := by
  induction more with
  | nil => exact ⟨[], rfl, by simp⟩
  | cons nodes more ih =>
    obtain ⟨⟨d, rfl, hd⟩, hmore⟩ := List.forall_mem_cons.1 h
    obtain ⟨ds, hflat, hds⟩ := ih hmore
    refine ⟨d :: ds, ?_, List.forall_mem_cons.2 ⟨hd, hds⟩⟩
    rw [List.flatten_cons, hflat, List.flatMap_cons]

theorem declarations_declare : Gives (At t) (declarations inner) (Declares t) := by
  refine token_gives_at (.skip fun _ => (declarator_declares _ _).bind ?_)
  rintro _ ⟨d, rfl, hd⟩
  refine (many_gives (afterComma_gives (declarator_declares _ []))).bind fun more hmore => ?_
  obtain ⟨ds, hflat, hds⟩ := exists_declarators hmore
  refine .skip fun _ => .pure ⟨d, ds, ?_, hd, hds⟩
  rw [hflat]

theorem functionDeclaration_declares :
    Gives (At t) (functionDeclaration inner) (DeclaresFunction t) := by
  refine token_gives_at (.skip fun name => .ite (fun _ => .throw) fun _ => .skip fun made => ?_)
  exact .pure ⟨⟨t.comments, .varWord, name, some (.function t.comments made.1 made.2)⟩, rfl, rfl, rfl⟩

theorem Declares.led (h : Declares t nodes) : ∀ first ∈ nodes.head?, first.LedBy t := by
  obtain ⟨d, ds, rfl, hd, -⟩ := h
  have hfirst : (Node.declaration d.comments d.word d.name).LedBy t := by
    show t.comments <+: d.comments
    rw [hd]
    exact List.prefix_append _ _
  simpa [Declarator.nodes] using hfirst

theorem DeclaresFunction.led (h : DeclaresFunction t nodes) :
    ∀ first ∈ nodes.head?, first.LedBy t := by
  obtain ⟨d, rfl, hd, -⟩ := h
  have hfirst : (Node.declaration d.comments d.word d.name).LedBy t := ledBy_of_eq hd
  simpa [Declarator.nodes] using hfirst

theorem node_led : Gives (At t) (Construct.node inner) (LedBy t) :=
  token_gives_at (.skip fun _ => .skip fun _ => .pure (ledBy_of_eq rfl))

theorem read_keeps (h : Led inner) : Gives (At t) (read inner) (KeepsComments t) := by
  have hnode : Gives (At t) (do return [← Construct.node inner])
      fun nodes => ∀ first ∈ nodes.head?, first.LedBy t :=
    node_led.bind fun node hled => .pure (by simpa using hled)
  have hnothing : ∀ first ∈ ([] : List Node).head?, first.LedBy t := by simp
  refine token_gives_at ?_
  rw [Construct.isLabel_eq]
  refine looksPast_gives fun labelled => ?_
  cases hkind : t.kind with
  | keyword =>
    -- of the two kinds of declarations each is read at its own words
    have hword (value : String) : t.isKeyword value = (t.value == value) := by
      simp [Token.isKeyword, hkind]
    refine .ite (fun hfunction => ?_) fun hfunction => .ite (fun hdeclares => ?_)
      fun hdeclares => ?_
    · refine functionDeclaration_declares.conseq (fun _ hr => hr) fun nodes hnodes => ?_
      refine ⟨hnodes.led, fun hother => ?_, fun _ => hnodes⟩
      rw [hword, hword, eq_of_beq hfunction] at hother
      exact absurd hother (by decide)
    · refine declarations_declare.conseq (fun _ hr => hr) fun nodes hnodes => ?_
      refine ⟨hnodes.led, fun _ => hnodes, fun hother => ?_⟩
      rw [hword] at hother
      exact absurd hother hfunction
    have hled {nodes : List Node} (hnodes : ∀ first ∈ nodes.head?, first.LedBy t) :
        KeepsComments t nodes := by
      refine ⟨hnodes, fun hother => ?_, fun hother => ?_⟩
      · rw [hword, hword, ← Bool.or_eq_true] at hother
        exact absurd hother hdeclares
      · rw [hword] at hother
        exact absurd hother hfunction
    refine .ite (fun _ => returns_led.conseq (fun _ hr => hr) fun _ => hled) fun _ => ?_
    refine .ite (fun _ => .skip fun _ => .skip fun _ => .pure (hled hnothing)) fun _ => ?_
    exact .ite (fun _ => hnode.conseq (fun _ hr => hr) fun _ => hled) fun _ => .throw
  | punctuation =>
    have hled {nodes : List Node} (hnodes : ∀ first ∈ nodes.head?, first.LedBy t) :
        KeepsComments t nodes := .of_kind (by simp [hkind]) hnodes
    refine .ite (fun _ => .skip fun body => .pure (hled ?_)) fun _ => ?_
    · simpa using ledBy_of_eq rfl
    refine .ite (fun _ => .skip fun _ => .pure (hled hnothing)) fun _ => ?_
    exact .ite (fun _ => (expressions_led h).conseq (fun _ hr => hr) fun _ => hled) fun _ => .throw
  | name =>
    have hled {nodes : List Node} (hnodes : ∀ first ∈ nodes.head?, first.LedBy t) :
        KeepsComments t nodes := .of_kind (by simp [hkind]) hnodes
    refine .ite (fun _ => hnode.conseq (fun _ hr => hr) fun _ => hled) fun _ => ?_
    exact (expressions_led h).conseq (fun _ hr => hr) fun _ => hled
  | atom | string | number | regexp | operator =>
    exact (expressions_led h).conseq (fun _ hr => hr) fun _ => .of_kind (by simp [hkind])
  | eof => exact .throw

/-- Wherever a statement is read, the first of its nodes begins with the comments in front of
its first token; and what declares carries the same comments as what assigns. -/
theorem comments_kept {depth : Nat} {r r₁ r₂ : Reading} (ht : token r = .ok t r₁)
    (hread : read (.within depth) r = .ok nodes r₂) : KeepsComments t nodes := by
  obtain ⟨u, s, htoken, hrest⟩ := bind_eq_ok.1 hread
  rw [ht] at htoken
  cases htoken
  obtain ⟨hat, hagain⟩ := token_again ht
  refine read_keeps (led_within depth) r₁ nodes r₂ hat ?_
  rw [read, bind_run_ok hagain]
  exact hrest

def finds {α : Type} (x : Reader α) (r : Reading) (p : α → Bool) : Bool :=
  match x r with
  | .ok a _ => p a
  | .error _ _ => false

theorem exists_of_finds {α : Type} {x : Reader α} {r : Reading} {p : α → Bool}
    (h : finds x r p = true) : ∃ a r', x r = .ok a r' ∧ p a = true := by
  unfold finds at h
  cases hx : x r with
  | ok a r' =>
    rw [hx] at h
    exact ⟨a, r', rfl, h⟩
  | error e r' =>
    rw [hx] at h
    cases h

/-- The comment of the keyword and that of the name, on what is declared and on what is
assigned. -/
theorem comments_kept_list :
    ∃ t r₁ nodes r₂, token (.ofFeed (.ofText "/** d */ var /* e */ a = 1, /* f */ b")) = .ok t r₁ ∧
      read (.within nestingLimit) (.ofFeed (.ofText "/** d */ var /* e */ a = 1, /* f */ b")) =
        .ok nodes r₂ ∧
      nodes.map (fun n => (n.kindName, n.comments.map (·.text))) =
        [("VarDecl", ["* d ", " e "]), ("Assign", ["* d ", " e "]),
          ("VarDecl", [" f "])] ∧
      KeepsComments t nodes := by
  have hfirst : finds token (.ofFeed (.ofText "/** d */ var /* e */ a = 1, /* f */ b"))
      (·.isKeyword "var") = true := by decide +kernel
  have hfull : finds (read (.within nestingLimit))
      (.ofFeed (.ofText "/** d */ var /* e */ a = 1, /* f */ b")) (fun nodes =>
        nodes.map (fun n => (n.kindName, n.comments.map (·.text))) ==
          [("VarDecl", ["* d ", " e "]), ("Assign", ["* d ", " e "]),
            ("VarDecl", [" f "])]) = true := by decide +kernel
  obtain ⟨t, r₁, htoken, -⟩ := exists_of_finds hfirst
  obtain ⟨nodes, r₂, hread, hnodes⟩ := exists_of_finds hfull
  exact ⟨t, r₁, nodes, r₂, htoken, hread, eq_of_beq hnodes, comments_kept htoken hread⟩

end Statement

end ScriptOutline
