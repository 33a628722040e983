/-
Expressions, statements and whole scripts stay abreast.

The readers of expressions and statements over two sources whose tokens correspond, and
from them, by induction on the depth, a whole script.
-/
import ScriptOutline.Proofs.Abreast

namespace ScriptOutline

/-! ## Expressions -/

namespace Expression

open Reader

variable {p : Pairing} {more : List (Except LexError Token)} {u : Token} {inner : Readers}

theorem rest_keeps : (p.readers more).Keeps rest rest
    fun as bs => TokenTree.bareAll as = TokenTree.bareAll bs := gather_keeps fun _ _ => rfl

@[grind ←] theorem rest_rests : (p.readers more).Rests rest := gather_rests

theorem continuation_keeps : (p.readers more).Keeps continuation continuation
    fun as bs => TokenTree.bareAll as = TokenTree.bareAll bs :=
  token_keeps.bind (fun _ _ hab => .ite (hab.test (·.endsExpression) fun _ => rfl)
    (fun _ => .pure rfl) fun _ => rest_keeps) (by grind)

@[grind ←] theorem continuation_rests : (p.readers more).Rests continuation := by
  unfold continuation
  grind

theorem tail_keeps : (p.readers more).Keeps tail tail
    fun as bs => as.map TokenTree.bareAll = bs.map TokenTree.bareAll := by
  refine token_keeps.bind (fun a b hab => ?_) (by grind)
  refine .ite (hab.test (·.endsExpression) fun _ => rfl) (fun _ => .pure rfl) fun _ => ?_
  refine rest_keeps.bind (fun _ _ htrees => ?_) (by grind)
  exact (warn_keeps hab _).bind (fun _ _ _ => .pure (congrArg some htrees)) (by grind)

@[grind ←] theorem tail_rests : (p.readers more).Rests tail := by
  unfold tail
  grind

theorem dropTail_keeps : (p.readers more).Keeps dropTail dropTail fun _ _ => True :=
  tail_keeps.bind (fun _ _ _ => .pure trivial) (by grind)

@[grind ←] theorem dropTail_rests : (p.readers more).Rests dropTail := by
  unfold dropTail
  grind

/-- What an argument and an element have in common: the comma behind an expression, or
the bracket that ends the list. -/
theorem listed_keeps (h : p.Paired more inner) (closing : String) :
    (p.readers more).Keeps
      (do
        let node ← inner.expression
        if (← token).isPunctuation "," then
          let _ ← advance
        else
          let _ ← expectPunctuation closing
        return some node)
      (do
        let node ← inner.expression
        if (← token).isPunctuation "," then
          let _ ← advance
        else
          let _ ← expectPunctuation closing
        return some node)
      (Option.Rel fun m n => m.bare = n.bare) := by
  have hrest := h.resting
  refine h.expression.bind (fun m n hmn => ?_) (by grind)
  refine token_keeps.bind (fun a b hab => ?_) (by grind)
  refine .ite (hab.test (·.isPunctuation ",") fun _ => rfl) (fun _ => ?_) fun _ => ?_
  · exact advance_keeps.bind (fun _ _ _ => .pure (.some hmn)) (by grind)
  · exact (expect_keeps _).bind (fun _ _ _ => .pure (.some hmn)) (by grind)

theorem argument_keeps (h : p.Paired more inner) :
    (p.readers more).Keeps (argument inner) (argument inner)
      (Option.Rel fun m n => m.bare = n.bare) := by
  have hrest := h.resting
  refine token_keeps.bind (fun a b hab => ?_) (by grind)
  exact .ite (hab.test (·.isPunctuation ")") fun _ => rfl) (fun _ => .pure .none)
    fun _ => listed_keeps h ")"

@[grind ←] theorem argument_rests (h : p.Resting more inner) :
    (p.readers more).Rests (argument inner) := by
  unfold argument
  grind

theorem arguments_keeps (h : p.Paired more inner) :
    (p.readers more).Keeps (arguments inner) (arguments inner)
      fun ms ns => Node.bareAll ms = Node.bareAll ns := by
  have hrest := h.resting
  refine (pass_keeps _).bind (fun _ _ _ => ?_) (by grind)
  refine (many_keeps (argument_keeps h) (by grind)).bind (fun _ _ hnodes => ?_) (by grind)
  exact advance_keeps.bind (fun _ _ _ => .pure (Node.bareAll_eq_of_forall₂ hnodes)) (by grind)

@[grind ←] theorem arguments_rests (h : p.Resting more inner) :
    (p.readers more).Rests (arguments inner) := by
  unfold arguments
  grind

theorem element_keeps (h : p.Paired more inner) :
    (p.readers more).Keeps (element inner) (element inner)
      (Option.Rel fun m n => m.bare = n.bare) := by
  have hrest := h.resting
  refine token_keeps.bind (fun a b hab => ?_) (by grind)
  refine .ite (hab.test (·.isPunctuation "]") fun _ => rfl) (fun _ => .pure .none) fun _ => ?_
  refine .ite (hab.test (·.isPunctuation ",") fun _ => rfl) (fun _ => ?_) fun _ =>
    listed_keeps h "]"
  exact advance_keeps.bind (fun _ _ _ => .pure (.some rfl)) (by grind)

@[grind ←] theorem element_rests (h : p.Resting more inner) :
    (p.readers more).Rests (element inner) := by
  unfold element
  grind

theorem elements_keeps (h : p.Paired more inner) :
    (p.readers more).Keeps (elements inner) (elements inner)
      fun ms ns => Node.bareAll ms = Node.bareAll ns := by
  have hrest := h.resting
  refine advance_keeps.bind (fun _ _ _ => ?_) (by grind)
  refine (many_keeps (element_keeps h) (by grind)).bind (fun _ _ hnodes => ?_) (by grind)
  exact advance_keeps.bind (fun _ _ _ => .pure (Node.bareAll_eq_of_forall₂ hnodes)) (by grind)

@[grind ←] theorem elements_rests (h : p.Resting more inner) :
    (p.readers more).Rests (elements inner) := by
  unfold elements
  grind

/-- A block is content with the end of the input. -/
theorem blockRound_rests (inner : Readers) : (p.readers more).Rests (do
    let t ← token
    if t.isEof || t.isPunctuation "\x7d" then return none
    else return some (← inner.statement)) := by
  refine token_bind_rests fun b hb => ?_
  simp only [p.eof_of_stop hb, Bool.true_or, if_true]
  exact .pure _

@[grind ←] theorem block_rests (inner : Readers) : (p.readers more).Rests (block inner) :=
  .bind (.many (blockRound_rests inner)) fun _ => .pure _

theorem block_keeps (h : p.Paired more inner) : (p.readers more).Keeps (block inner) (block inner)
    fun ms ns => Node.bareAll ms = Node.bareAll ns := by
  refine (many_keeps (Q := fun ms ns => Node.bareAll ms = Node.bareAll ns) ?_
    (blockRound_rests inner)).bind (fun _ _ h => .pure (Node.bareAll_flatten h)) (by grind)
  refine token_bind_keeps (fun a b hab => ?_) fun b hb => ?_
  · refine .ite (hab.test (fun t => t.isEof || t.isPunctuation "\x7d") fun _ => rfl)
      (fun _ => Pairing.keepsAt_of_keeps (.pure .none)) fun _ => ?_
    exact Tandem.Lockstep.bind (h.statement b)
      (fun _ _ => .pure fun _ _ hms => ⟨.some hms.1, hms.2⟩) fun _ => .pure fun _ hr => hr
  · simp only [p.eof_of_stop hb, Bool.true_or, if_true]
    exact .pure _

theorem braces_keeps (h : p.Paired more inner) :
    (p.readers more).Keeps (braces inner) (braces inner)
      fun ms ns => Node.bareAll ms = Node.bareAll ns := by
  refine (pass_keeps _).bind (fun _ _ _ => ?_) (by grind)
  refine (block_keeps h).bind (fun _ _ hbody => ?_) (by grind)
  exact (pass_keeps _).bind (fun _ _ _ => .pure hbody) (by grind)

@[grind ←] theorem braces_rests (inner : Readers) : (p.readers more).Rests (braces inner) := by
  unfold braces
  grind

theorem map_bare_of_forall₂ {as bs : List Token} (h : List.Forall₂ p.Met as bs) :
    as.map Token.bare = bs.map Token.bare := by
  induction h with
  | nil => rfl
  | cons hab _ ih => rw [List.map_cons, List.map_cons, hab.bare_eq, ih]

theorem parameter_keeps : (p.readers more).Keeps parameter parameter (Option.Rel p.Met) := by
  refine token_keeps.bind (fun a b hab => ?_) (by grind)
  refine .ite (hab.test (·.isPunctuation ")") fun _ => rfl) (fun _ => .pure .none) fun _ => ?_
  refine (expect_keeps _).bind (fun _ _ hname => ?_) (by grind)
  refine advance_keeps.bind (fun _ _ hnext => ?_) (by grind)
  refine .ite (hnext.test (·.isPunctuation ",") fun _ => rfl) (fun _ => ?_) fun _ => ?_
  · exact advance_keeps.bind (fun _ _ _ => .pure (.some hname)) (by grind)
  · exact (expect_keeps _).bind (fun _ _ _ => .pure (.some hname)) (by grind)

@[grind ←] theorem parameter_rests : (p.readers more).Rests parameter := by
  unfold parameter
  grind

/-- Both runs have met the same number of functions without a name. -/
theorem nextAnonymous_keeps : (p.readers more).Keeps
    (do
      modify fun r => { r with anonymous := r.anonymous + 1 }
      return FunctionName.anonymous (← get).anonymous)
    (do
      modify fun r => { r with anonymous := r.anonymous + 1 }
      return FunctionName.anonymous (← get).anonymous)
    fun m n => m.bare = n.bare := by
  intro r r' h
  refine .inl ⟨_, _, rfl, ?_, h.1, ?_, h.2.warnings, h.2.depth⟩
  · exact congrArg (fun n => FunctionName.anonymous (n + 1)) h.2.anonymous
  · exact congrArg (· + 1) h.2.anonymous

theorem functionName_keeps : (p.readers more).Keeps functionName functionName
    fun m n => m.bare = n.bare := by
  refine advance_keeps.bind (fun a b hab => ?_) fun b => ?_
  · refine .ite (hab.test (·.kind == .name) fun _ => rfl) (fun _ => ?_) fun _ => nextAnonymous_keeps
    exact advance_keeps.bind (fun _ _ _ => .pure (congrArg FunctionName.named hab.bare_eq))
      (by grind)
  · split
    · grind
    · exact fun _ h => h

@[grind ←] theorem functionName_rests : (p.readers more).Rests functionName := by
  refine advance_rests.bind fun b => ?_
  split
  · grind
  · exact fun _ h => h

theorem function_keeps (h : p.Paired more inner) :
    (p.readers more).Keeps (function inner) (function inner)
      fun m n => m.1.bare = n.1.bare ∧ Node.bareAll m.2 = Node.bareAll n.2 := by
  refine (expect_keeps _).bind (fun _ _ _ => ?_) (by grind)
  refine functionName_keeps.bind (fun m n hname => ?_) (by grind)
  refine (pass_keeps _).bind (fun _ _ _ => ?_) (by grind)
  refine (many_keeps parameter_keeps (by grind)).bind (fun ps qs hparameters => ?_) (by grind)
  refine advance_keeps.bind (fun _ _ _ => ?_) (by grind)
  refine (braces_keeps h).bind (fun ms ns hbody => .pure ⟨?_, hbody⟩) (by grind)
  simp only [FunctionHead.bare, hname, map_bare_of_forall₂ hparameters]

@[grind ←] theorem function_rests (inner : Readers) : (p.readers more).Rests (function inner) := by
  unfold function
  grind

/-- Whether the bracket `lead` is closed right behind the function. -/
def closedBehind (lead : Token) : Reader Bool := do
  if lead.isPunctuation "(" then return (← token).isPunctuation ")" else return false

/-- What stands behind a function that may be called where it stands.  `opened` says
whether a bracket is open around both. -/
def calledOrNot (inner : Readers) (comments : List Comment) (head : FunctionHead) (body : List Node)
    (opened : Bool) : Reader Node := do
  if (← token).isPunctuation "(" then
    let arguments ← arguments inner
    if opened then pass ")"
    dropTail
    return .immediate comments head body arguments
  else
    dropTail
    if opened then
      pass ")"
      dropTail
    return .function comments head body

theorem immediate_eq (inner : Readers) :
    immediate inner = (do
      let lead ← token
      let keyword ← advance
      let (head, body) ← function inner
      let closed ← closedBehind lead
      if closed then
        let _ ← advance
      calledOrNot inner (lead.comments ++ keyword.comments) head body
        (lead.isPunctuation "(" && !closed)) := by
  unfold immediate closedBehind calledOrNot
  congr! 6 with lead keyword made
  obtain ⟨head, body⟩ := made
  by_cases hlead : lead.isPunctuation "(" = true
  · simp only [hlead, if_true, bind_assoc, pure_bind]
  · simp only [hlead, Bool.false_eq_true, if_false, pure_bind]

@[grind ←] theorem closedBehind_rests (b : Token) : (p.readers more).Rests (closedBehind b) := by
  unfold closedBehind
  grind

@[grind ←] theorem calledOrNot_rests (h : p.Resting more inner) (ds : List Comment)
    (head : FunctionHead) (body : List Node) (opened : Bool) :
    (p.readers more).Rests (calledOrNot inner ds head body opened) := by
  unfold calledOrNot
  grind

theorem closedBehind_keeps {a b : Token} (hab : p.Met a b) :
    (p.readers more).Keeps (closedBehind a) (closedBehind b) (· = ·) := by
  refine .ite (hab.test (·.isPunctuation "(") fun _ => rfl) (fun _ => ?_) fun _ => .pure rfl
  exact token_keeps.bind (fun _ _ hcd => .pure (hcd.congr (·.isPunctuation ")") fun _ => rfl))
    (by grind)

theorem calledOrNot_keeps (h : p.Paired more inner) (cs ds : List Comment)
    {head head' : FunctionHead} (hhead : head.bare = head'.bare) {body body' : List Node}
    (hbody : Node.bareAll body = Node.bareAll body') (opened : Bool) :
    (p.readers more).Keeps (calledOrNot inner cs head body opened)
      (calledOrNot inner ds head' body' opened) fun m n => m.bare = n.bare := by
  have hrest := h.resting
  refine token_keeps.bind (fun a b hab => ?_) (by grind)
  refine .ite (hab.test (·.isPunctuation "(") fun _ => rfl) (fun _ => ?_) fun _ => ?_
  · refine (arguments_keeps h).bind (fun ms ns harguments => ?_) (by grind)
    have hnode : (p.readers more).Keeps
        (do dropTail; return Node.immediate cs head body ms)
        (do dropTail; return Node.immediate ds head' body' ns) fun m n => m.bare = n.bare := by
      refine dropTail_keeps.bind (fun _ _ _ => .pure ?_) (by grind)
      simp only [Node.bare, hhead, hbody, harguments]
    exact .ite Iff.rfl (fun _ => (pass_keeps _).bind (fun _ _ _ => hnode) (by grind)) fun _ => hnode
  · have hnode : (Node.function cs head body).bare = (Node.function ds head' body').bare := by
      simp only [Node.bare, hhead, hbody]
    refine dropTail_keeps.bind (fun _ _ _ => ?_) (by grind)
    refine .ite Iff.rfl (fun _ => ?_) fun _ => .pure hnode
    refine (pass_keeps _).bind (fun _ _ _ => ?_) (by grind)
    exact dropTail_keeps.bind (fun _ _ _ => .pure hnode) (by grind)

theorem immediate_keeps (h : p.Paired more inner) :
    (p.readers more).Keeps (immediate inner) (immediate inner) fun m n => m.bare = n.bare := by
  have hrest := h.resting
  rw [immediate_eq]
  refine token_keeps.bind (fun a b hab => ?_) (by grind)
  refine advance_keeps.bind (fun c d hcd => ?_) (by grind)
  refine (function_keeps h).bind (fun m n hmn => ?_) (by grind)
  obtain ⟨head, body⟩ := m
  obtain ⟨head', body'⟩ := n
  refine (closedBehind_keeps hab).bind (fun closed closed' hclosed => ?_) (by grind)
  rw [hclosed, hab.congr (·.isPunctuation "(") fun _ => rfl]
  have hcalled := calledOrNot_keeps h (a.comments ++ c.comments) (b.comments ++ d.comments)
    hmn.1 hmn.2 (b.isPunctuation "(" && !closed')
  exact .ite Iff.rfl (fun _ => advance_keeps.bind (fun _ _ _ => hcalled) (by grind)) fun _ =>
    hcalled

@[grind ←] theorem immediate_rests (h : p.Resting more inner) :
    (p.readers more).Rests (immediate inner) := by
  rw [immediate_eq]
  grind

/-- Properties that say the same. -/
inductive Property.Alike (p : Pairing) : Property → Property → Prop where
  | name {s t : Token} (h : s.bare = t.bare) : Alike p (.name s) (.name t)
  | computed {s t : Token} (h : p.Met s t) : Alike p (.computed s) (.computed t)

theorem stringKey?_bare (tree : TokenTree) :
    stringKey? tree.bare = (stringKey? tree).map Token.bare := by
  match tree with
  | .leaf _ => rfl
  | .group _ [] _ => rfl
  | .group _ [.group ..] _ => rfl
  | .group _ (.leaf _ :: _ :: _) _ => rfl
  | .group _ (.group .. :: _ :: _) _ => rfl
  | .group _ [.leaf key] _ =>
    simp only [TokenTree.bare, TokenTree.bareAll, stringKey?, Token.bare]
    split <;> rfl

theorem property_keeps :
    (p.readers more).Keeps property property (Option.Rel (Property.Alike p)) := by
  refine token_keeps.bind (fun a b hab => ?_) (by grind [advance_bind_rests])
  refine .ite (hab.test (·.isPunctuation ".") fun _ => rfl) (fun _ => ?_) fun _ => ?_
  · refine advance_bind_keeps (fun c d hcd => ?_) (by grind)
    refine .ite (hcd.test (·.isPropertyName) fun _ => rfl) (fun _ => ?_) fun _ => ?_
    · exact advance_keeps.bind (fun _ _ _ => .pure (.some (.name hcd.bare_eq))) (by grind)
    · exact .throw (hcd.unexpected _)
  · refine .ite (hab.test (·.isPunctuation "[") fun _ => rfl) (fun _ => ?_) fun _ => .pure .none
    refine group_keeps.bind (fun c d hcd => ?_) (by grind)
    have hkey := stringKey?_bare c
    rw [hcd, stringKey?_bare d] at hkey
    match stringKey? c, stringKey? d, hkey with
    | none, none, _ => exact .pure (.some (.computed hab))
    | some s, some t, hkey => exact .pure (.some (.name (Option.some.inj hkey).symm))

@[grind ←] theorem property_rests : (p.readers more).Rests property := by
  unfold property
  grind [advance_bind_rests]

theorem properties_keeps :
    (p.readers more).Keeps properties properties (List.Forall₂ (Property.Alike p)) := by
  refine Tandem.Keeps.collect (T := p.readers more) (G := (· = ·))
    (fun _ _ _ _ hs ht => Pairing.remaining_lt_iff hs.1 ht.1)
    (fun known known' hknown => ?_) (by grind) rfl
  subst hknown
  refine .ite Iff.rfl (fun _ => ?_) fun _ => .pure .none
  refine property_keeps.bind (fun o o' ho => ?_) (by grind)
  rcases Pairing.rel_cases ho with ⟨rfl, rfl⟩ | ⟨_, _, rfl, rfl, hst⟩
  · exact .pure .none
  · cases hst with
    | name hst => exact .pure (.some ⟨.name hst, rfl⟩)
    | computed hst => exact .pure (.some ⟨.computed hst, rfl⟩)

@[grind ←] theorem properties_rests : (p.readers more).Rests properties := by
  unfold properties
  exact .collect (by grind) true

theorem pathOf_name (root t : Token) (ps : List Property) :
    pathOf root (.name t :: ps) =
      (pathOf root ps).map fun path => { path with properties := t :: path.properties } := by
  unfold pathOf
  rw [List.mapM_cons]
  show (Except.ok t >>= fun a => List.mapM (m := Except Token) _ ps >>= fun as =>
    pure (a :: as)) >>= _ = _
  generalize List.mapM (m := Except Token) _ ps = names
  cases names <;> rfl

/-- A path has the properties it is made of, all of them names. -/
theorem pathOf_eq_ok {root : Token} {ps : List Property} {path : SymbolPath}
    (h : pathOf root ps = .ok path) :
    path.root = root ∧ ps = path.properties.map Property.name := by
  induction ps generalizing path with
  | nil =>
    cases h
    exact ⟨rfl, rfl⟩
  | cons p ps ih =>
    cases p with
    | computed u => cases h
    | name u =>
      rw [pathOf_name] at h
      cases hpath : pathOf root ps with
      | error u =>
        rw [hpath] at h
        cases h
      | ok path' =>
        rw [hpath] at h
        cases h
        obtain ⟨hroot, hps⟩ := ih hpath
        exact ⟨hroot, congrArg _ hps⟩

theorem pathOf_alike {a b : Token} (hab : p.Met a b) {ps qs : List Property}
    (h : List.Forall₂ (Property.Alike p) ps qs) :
    (∃ s t, pathOf a ps = .ok s ∧ pathOf b qs = .ok t ∧ s.bare = t.bare) ∨
      ∃ c d, pathOf a ps = .error c ∧ pathOf b qs = .error d ∧ p.Met c d := by
  induction h with
  | nil =>
    refine .inl ⟨{ root := a }, { root := b }, rfl, rfl, ?_⟩
    simp only [SymbolPath.bare, hab.bare_eq, List.map_nil]
  | cons hpq _ ih =>
    cases hpq with
    | computed hcd => exact .inr ⟨_, _, rfl, rfl, hcd⟩
    | name hst =>
      rw [pathOf_name, pathOf_name]
      rcases ih with ⟨s, t, hs, ht, heq⟩ | ⟨c, d, hs, ht, hcd⟩
      · rw [hs, ht]
        refine .inl ⟨_, _, rfl, rfl, ?_⟩
        simp only [SymbolPath.bare, SymbolPath.mk.injEq] at heq ⊢
        rw [List.map_cons, List.map_cons, hst, heq.1, heq.2]
        exact ⟨rfl, rfl⟩
      · rw [hs, ht]
        exact .inr ⟨c, d, rfl, rfl, hcd⟩

theorem path_keeps : (p.readers more).Keeps path path
    fun s t => s.map SymbolPath.bare = t.map SymbolPath.bare := by
  refine token_keeps.bind (fun a b hab => ?_) (by grind)
  refine advance_keeps.bind (fun _ _ _ => ?_) (by grind)
  refine properties_keeps.bind (fun ps qs hps => ?_) (by grind)
  rcases pathOf_alike hab hps with ⟨s, t, hs, ht, hst⟩ | ⟨c, d, hs, ht, hcd⟩
  · rw [hs, ht]
    exact .pure (congrArg some hst)
  · rw [hs, ht]
    exact (warn_keeps hcd _).bind (fun _ _ _ => .pure rfl) (by grind)

@[grind ←] theorem path_rests : (p.readers more).Rests path := by
  unfold path
  grind

/-- A link of a chain from its first property on. -/
def linkFrom (inner : Readers) (comments : List Comment) : Reader (Option Node) := do
  let path ← path
  if (← token).isPunctuation "(" then
    let arguments ← arguments inner
    match path with
    | some callee => return some (.call comments callee arguments)
    | none => return some (.invocation comments none arguments [] none)
  else return some (.reference comments path none)

theorem link_eq (inner : Readers) :
    link inner = (do
      if (← token).isPunctuation "." then
        let first ← advance
        if first.isPropertyName then linkFrom inner first.comments
        else throw (.unexpected (.anyOf .name) first)
      else return none) := by
  unfold link linkFrom
  congr! 4
  funext first
  cases first.isPropertyName with
  | true => rfl
  | false => rfl

@[grind ←] theorem linkFrom_rests (h : p.Resting more inner) (ds : List Comment) :
    (p.readers more).Rests (linkFrom inner ds) := by
  unfold linkFrom
  grind

theorem linkFrom_keeps (h : p.Paired more inner) (cs ds : List Comment) :
    (p.readers more).Keeps (linkFrom inner cs) (linkFrom inner ds)
      (Option.Rel fun m n => m.bare = n.bare) := by
  have hrest := h.resting
  refine path_keeps.bind (fun s t hst => ?_) (by grind)
  refine token_keeps.bind (fun a b hab => ?_) (by grind)
  refine .ite (hab.test (·.isPunctuation "(") fun _ => rfl) (fun _ => ?_) fun _ => .pure (.some ?_)
  · refine (arguments_keeps h).bind (fun _ _ harguments => ?_) (by grind)
    match s, t, hst with
    | none, none, _ => exact .pure (.some (by simp only [Node.bare, harguments]))
    | some s, some t, hst =>
      exact .pure (.some (by simp only [Node.bare, Option.some.inj hst, harguments]))
  · simp only [Node.bare, hst]

theorem link_keeps (h : p.Paired more inner) :
    (p.readers more).Keeps (link inner) (link inner) (Option.Rel fun m n => m.bare = n.bare) := by
  have hrest := h.resting
  rw [link_eq]
  refine token_keeps.bind (fun a b hab => ?_) (by grind [advance_bind_rests])
  refine .ite (hab.test (·.isPunctuation ".") fun _ => rfl) (fun _ => ?_) fun _ => .pure .none
  refine advance_bind_keeps (fun c d hcd => ?_) (by grind)
  exact .ite (hcd.test (·.isPropertyName) fun _ => rfl) (fun _ => linkFrom_keeps h _ _)
    fun _ => .throw (hcd.unexpected _)

@[grind ←] theorem link_rests (h : p.Resting more inner) :
    (p.readers more).Rests (link inner) := by
  rw [link_eq]
  grind [advance_bind_rests]

theorem referenceTo_keeps (h : p.Paired more inner) (cs ds : List Comment)
    {s t : Option SymbolPath} (hst : s.map SymbolPath.bare = t.map SymbolPath.bare) :
    (p.readers more).Keeps (referenceTo inner cs s) (referenceTo inner ds t)
      fun m n => m.bare = n.bare := by
  have hrest := h.resting
  refine token_keeps.bind (fun a b hab => ?_) (by grind)
  refine .ite (hab.test (·.isPunctuation "(") fun _ => rfl) (fun _ => ?_) fun _ => ?_
  · refine (arguments_keeps h).bind (fun _ _ harguments => ?_) (by grind)
    refine (many_keeps (link_keeps h) (by grind)).bind (fun _ _ hchain => ?_) (by grind)
    refine tail_keeps.bind (fun _ _ htail => .pure ?_) (by grind)
    simp only [Node.bare, hst, harguments, Node.bareAll_eq_of_forall₂ hchain, htail]
  · refine tail_keeps.bind (fun _ _ htail => .pure ?_) (by grind)
    simp only [Node.bare, hst, htail]

@[grind ←] theorem referenceTo_rests (h : p.Resting more inner) (ds : List Comment)
    (t : Option SymbolPath) : (p.readers more).Rests (referenceTo inner ds t) := by
  unfold referenceTo
  grind

theorem primitive_keeps {a b : Token} (hab : p.Met a b) (kind : PrimitiveKind) :
    (p.readers more).Keeps (primitive kind a) (primitive kind b) fun m n => m.bare = n.bare := by
  refine advance_keeps.bind (fun c d hcd => ?_) (by grind)
  refine .ite (hcd.test (·.endsExpression) fun _ => rfl) (fun _ => .pure ?_) fun _ => ?_
  · simp only [Node.bare, hab.bare_eq]
  · refine rest_keeps.bind (fun _ _ hrest => .pure ?_) (by grind)
    simp only [Node.bare, TokenTree.bareAll, TokenTree.bare, hab.bare_eq, hrest]

@[grind ←] theorem primitive_rests (b : Token) (kind : PrimitiveKind) :
    (p.readers more).Rests (primitive kind b) := by
  unfold primitive
  grind

theorem value_keeps (h : p.Paired more inner) :
    (p.readers more).Keeps (value inner) (value inner) fun m n => m.bare = n.bare := by
  have hrest := h.resting
  refine Reader.token_bind_keeps (fun a b hab => Pairing.keepsAt_of_keeps ?_) ?_
  · rw [hab.congr primitiveKind? fun _ => rfl]
    cases primitiveKind? b with
    | some kind => exact primitive_keeps hab kind
    | none =>
    refine .ite (hab.test (·.isKeyword "function") fun _ => rfl) (fun _ => ?_) fun _ => ?_
    · refine (function_keeps h).bind (fun m n hmn => ?_) (by grind)
      refine dropTail_keeps.bind (fun _ _ _ => .pure ?_) (by grind)
      simp only [Node.bare, hmn]
    refine .ite (hab.test (·.isPunctuation "(") fun _ => rfl) (fun _ => ?_) fun _ => ?_
    · refine group_keeps.bind (fun _ _ hgroup => ?_) (by grind)
      refine continuation_keeps.bind (fun _ _ hmore => .pure ?_) (by grind)
      simp only [Node.bare, TokenTree.bareAll, hgroup, hmore]
    refine .ite (hab.test (·.isPunctuation "[") fun _ => rfl) (fun _ => ?_) fun _ => ?_
    · refine (elements_keeps h).bind (fun _ _ hnodes => ?_) (by grind)
      refine dropTail_keeps.bind (fun _ _ _ => .pure ?_) (by grind)
      simp only [Node.bare, hnodes]
    refine .ite (hab.test (·.isPunctuation "\x7b") fun _ => rfl) (fun _ => ?_) fun _ => ?_
    · refine group_keeps.bind (fun _ _ hgroup => ?_) (by grind)
      refine continuation_keeps.bind (fun as bs hmore => .pure ?_) (by grind)
      have hempty : as.isEmpty = bs.isEmpty := by
        rw [← TokenTree.isEmpty_bareAll, hmore, TokenTree.isEmpty_bareAll]
      rw [hempty]
      split
      · simp only [Node.bare, TokenTree.bareAll, hgroup]
      · simp only [Node.bare, TokenTree.bareAll, hgroup, hmore]
    refine .ite (hab.test (·.kind == .name) fun _ => rfl) (fun _ => ?_) fun _ => ?_
    · exact path_keeps.bind (fun s t hst => referenceTo_keeps h _ _ hst) (by grind)
    refine .ite (hab.test (·.isOperator "new") fun _ => rfl) (fun _ => ?_) fun _ => ?_
    · refine advance_keeps.bind (fun _ _ _ => ?_) (by grind)
      refine h.expression.bind (fun m n hmn => .pure ?_) (by grind)
      simp only [Node.bare, hmn]
    refine .ite (hab.test (·.isEof) fun _ => rfl) (fun _ => .throw hab.endOfInput) fun _ => ?_
    exact .throw (.here hab (congrArg ReadFault.unknownStructure hab.bare_eq) rfl rfl)
  · intro b hb
    have heof := p.eof_of_stop hb
    grind

@[grind ←] theorem value_rests (h : p.Resting more inner) :
    (p.readers more).Rests (value inner) := by
  refine token_bind_rests fun b hb => ?_
  have heof := p.eof_of_stop hb
  grind

theorem assignmentOrReference_keeps (h : p.Paired more inner) (a b : Token) :
    (p.readers more).Keeps (assignmentOrReference inner a) (assignmentOrReference inner b)
      fun m n => m.bare = n.bare := by
  have hrest := h.resting
  refine path_keeps.bind (fun s t hst => ?_) (by grind)
  refine token_keeps.bind (fun c d hcd => ?_) (by grind)
  match s, t, hst with
  | none, none, hst => exact referenceTo_keeps h _ _ hst
  | some s, some t, hst =>
    refine .ite (hcd.test (·.isAssignment) fun _ => rfl) (fun _ => ?_)
      fun _ => referenceTo_keeps h _ _ hst
    refine advance_keeps.bind (fun _ _ _ => ?_) (by grind)
    refine h.expression.bind (fun m n hmn => .pure ?_) (by grind)
    simp only [Node.bare, Option.some.inj hst, hcd.congr (·.value) fun _ => rfl, hmn]

@[grind ←] theorem assignmentOrReference_rests (h : p.Resting more inner) (b : Token) :
    (p.readers more).Rests (assignmentOrReference inner b) := by
  unfold assignmentOrReference
  grind

theorem read_eq (inner : Readers) :
    read inner = (do
      let t ← token
      let invoked ← looksPast t.mayInvoke (·.isKeyword "function")
      if invoked then immediate inner
      else if t.kind == .name then assignmentOrReference inner t
      else if t.isLeadingOperator then
        let _ ← advance
        return .expression t.comments (.leaf t :: (← rest))
      else inner.value) := by
  unfold read looksPast
  congr! 2 with t
  by_cases ht : t.mayInvoke = true
  · simp only [ht, if_true, bind_assoc, pure_bind]
  · simp only [ht, Bool.false_eq_true, if_false, pure_bind]

theorem isLeadingOperator_of_mayInvoke {t : Token} (h : t.mayInvoke = true)
    (hbracket : t.isPunctuation "(" = false) : t.isLeadingOperator = true := by
  have hsubset : ∀ v ∈ Token.invokingOperators, v ∈ Token.leadingOperators := by decide
  simp only [Token.mayInvoke, hbracket, Bool.false_or, Bool.and_eq_true, List.contains_iff_mem,
    beq_iff_eq] at h
  simp only [Token.isLeadingOperator, h.1, beq_self_eq_true, Bool.true_and, List.contains_iff_mem]
  exact hsubset _ h.2

theorem read_keeps (h : p.Paired more inner) :
    (p.readers more).Keeps (read inner) (read inner) fun m n => m.bare = n.bare := by
  have hrest := h.resting
  rw [read_eq]
  refine Reader.token_bind_keeps (fun a b hab => ?_) (by grind)
  rw [hab.congr (·.mayInvoke) fun _ => rfl]
  refine (looksPast_lockstep (fun _ => rfl) isKeyword_of_isEof b).bind ?_ ?_
  · rintro invoked _ r r' ⟨rfl, hstand⟩
    refine Pairing.keepsAt_of_keeps (.ite Iff.rfl (fun _ => ?_) fun _ => ?_) r r' hstand
    · exact immediate_keeps h
    refine .ite (hab.test (·.kind == .name) fun _ => rfl) (fun _ => ?_) fun _ => ?_
    · exact assignmentOrReference_keeps h a b
    refine .ite (hab.test (·.isLeadingOperator) fun _ => rfl) (fun _ => ?_) fun _ => h.value
    refine advance_keeps.bind (fun _ _ _ => ?_) (by grind)
    refine rest_keeps.bind (fun _ _ hmore => .pure ?_) (by grind)
    simp only [Node.bare, TokenTree.bareAll, TokenTree.bare, hab.bare_eq, hmore]
  · rintro _ r ⟨rfl, hinvokes, hlast⟩
    by_cases hbracket : b.isPunctuation "(" = true
    · have hb : b.kind = .punctuation := by simp_all [Token.isPunctuation]
      simp only [Bool.false_eq_true, if_false, hb, Token.isLeadingOperator, beq_iff_eq,
        reduceCtorEq, Bool.and_eq_true, false_and]
      exact hrest.lastBracket r (hlast.mono fun u hu => hu ▸ hbracket)
    · have hleads := isLeadingOperator_of_mayInvoke hinvokes (by simpa using hbracket)
      have hb : b.kind = .operator := by simp_all [Token.isLeadingOperator]
      simp only [Bool.false_eq_true, if_false, hb, hleads, beq_iff_eq, reduceCtorEq, if_true]
      exact advance_bind_ends (by grind) r hlast

@[grind ←] theorem read_rests (h : p.Resting more inner) :
    (p.readers more).Rests (read inner) := by
  rw [read_eq]
  grind

theorem path_ends {q : Token → Prop} :
    (p.readers more).Ends (fun r => p.Last q r.stream) path fun _ => (p.readers more).spent :=
  (onStream_ends Pairing.token_ends).bind fun b r h => advance_bind_ends (by grind) r h.2

/-- A name alone is an expression. -/
theorem read_ends (h : p.Resting more inner) :
    (p.readers more).Ends (fun r => p.Last (fun u => u.kind = .name) r.stream) (read inner)
      fun _ => (p.readers more).spent := by
  rw [read_eq]
  refine (onStream_ends Pairing.token_ends).bind fun b => .assume fun hname => ?_
  have hinvokes : b.mayInvoke = false := by simp [Token.mayInvoke, Token.isPunctuation, hname]
  simp only [hinvokes, hname, looksPast, Bool.false_eq_true, if_false, pure_bind, beq_self_eq_true,
    if_true]
  refine path_ends.bind fun s => ?_
  show (p.readers more).Rests _
  grind

/-- An opening bracket alone is not. -/
theorem value_ends :
    (p.readers more).Ends (fun r => p.Last (fun u => u.isPunctuation "(" = true) r.stream)
      (value inner) fun _ => (p.readers more).spent := by
  refine (onStream_ends Pairing.token_ends).bind fun b => .assume fun hbracket => ?_
  have hkind : b.kind = .punctuation := by simp_all [Token.isPunctuation]
  have hprimitive : primitiveKind? b = none := by simp [primitiveKind?, hkind]
  have hfunction : b.isKeyword "function" = false := by simp [Token.isKeyword, hkind]
  have hopens (u : Token) (hu : u = b) : TokenPattern.opening.accepts u = true := by
    simp_all [TokenPattern.accepts, TokenPattern.opening, Token.isPunctuation]
  simp only [hprimitive, hfunction, hbracket, Bool.false_eq_true, if_false, if_true]
  refine (onStream_ends (Pairing.groupWithin_ends hopens _)).bind fun head => ?_
  show (p.readers more).Rests _
  grind

end Expression

/-! ## Statements -/

namespace Statement

open Reader

variable {p : Pairing} {more : List (Except LexError Token)} {u : Token} {inner : Readers}

theorem terminator_keeps : (p.readers more).Keeps terminator terminator fun _ _ => True := by
  refine token_keeps.bind (fun a b hab => ?_) (by grind)
  refine .ite (hab.test (·.isPunctuation ";") fun _ => rfl) (fun _ => ?_) fun _ => ?_
  · exact advance_keeps.bind (fun _ _ _ => .pure trivial) (by grind)
  refine .ite (hab.test (fun t => t.isPunctuation "\x7d" || t.isEof || t.startsLine) fun _ => rfl)
    (fun _ => .pure trivial) fun _ => ?_
  exact (expect_keeps _).bind (fun _ _ _ => .pure trivial) (by grind)

@[grind ←] theorem terminator_rests : (p.readers more).Rests terminator := by
  unfold terminator
  grind

theorem afterComma_keeps {α : Type} {x : Reader α} {Q : α → α → Prop}
    (hx : (p.readers more).Keeps x x Q) (hrest : (p.readers more).Rests x) :
    (p.readers more).Keeps (afterComma x) (afterComma x) (Option.Rel Q) := by
  refine token_keeps.bind (fun a b hab => ?_) (by grind)
  refine .ite (hab.test (·.isPunctuation ",") fun _ => rfl) (fun _ => ?_) fun _ => .pure .none
  refine advance_keeps.bind (fun _ _ _ => ?_) (by grind)
  exact hx.bind (fun _ _ h => .pure (.some h)) (by grind)

@[grind ←] theorem afterComma_rests {α : Type} {x : Reader α} (hrest : (p.readers more).Rests x) :
    (p.readers more).Rests (afterComma x) := by
  unfold afterComma
  grind

theorem expressions_keeps (h : p.Paired more inner) :
    (p.readers more).Keeps (expressions inner) (expressions inner)
      fun ms ns => Node.bareAll ms = Node.bareAll ns := by
  have hrest := h.resting
  refine h.expression.bind (fun m n hmn => ?_) (by grind)
  refine (many_keeps (afterComma_keeps h.expression (by grind)) (by grind)).bind
    (fun ms ns hmore => ?_) (by grind)
  refine terminator_keeps.bind (fun _ _ _ => .pure ?_) (by grind)
  simp only [Node.bareAll, hmn, Node.bareAll_eq_of_forall₂ hmore]

theorem expressions_ends (h : p.Resting more inner) :
    (p.readers more).Ends (fun r => p.Last (fun u => u.kind = .name) r.stream) (expressions inner)
      fun _ => (p.readers more).spent := by
  refine h.lastName.bind fun first => ?_
  show (p.readers more).Rests _
  grind

theorem functionDeclaration_keepsAt (h : p.Paired more inner) (u : Token) :
    p.KeepsAt more u (functionDeclaration inner) (functionDeclaration inner)
      fun ms ns => Node.bareAll ms = Node.bareAll ns := by
  refine token_bind_keepsAt fun a hab => ?_
  refine (onStream_lockstep Pairing.peek_lockstep).bind (fun c d => ?_) fun d => ?_
  · rintro r r' ⟨⟨hcd, hstand⟩, hnoted⟩
    refine Pairing.keepsAt_of_keeps ?_ r r' ⟨hstand, hnoted⟩
    refine .ite (hcd.test (·.kind != .name) fun _ => rfl) (fun _ => ?_) fun _ => ?_
    · exact .throw (hcd.unexpected _)
    · refine (Expression.function_keeps h).bind (fun m n hmn => .pure ?_) (by grind)
      simp only [Node.bareAll, Node.bare, SymbolPath.bare, List.map_nil, hcd.bare_eq, hmn]
  · rintro r ⟨hd, -⟩
    have heof := p.eof_of_stop hd
    have hname : (d.kind != .name) = true := by simp_all [Token.isEof]
    rw [if_pos hname]
    exact Pairing.cut_unexpected hd _

theorem declarator_keeps (h : p.Paired more inner) (word : DeclarationWord) (cs ds : List Comment) :
    (p.readers more).Keeps (declarator inner word cs) (declarator inner word ds)
      fun ms ns => Node.bareAll ms = Node.bareAll ns := by
  have hrest := h.resting
  refine (expect_keeps _).bind (fun a b hab => ?_) (by grind)
  refine advance_keeps.bind (fun c d hcd => ?_) (by grind)
  refine .ite (hcd.test (·.isOperator "=") fun _ => rfl) (fun _ => ?_) fun _ => .pure ?_
  · refine advance_keeps.bind (fun _ _ _ => ?_) (by grind)
    refine h.expression.bind (fun m n hmn => .pure ?_) (by grind)
    simp only [Node.bareAll, Node.bare, SymbolPath.bare, List.map_nil, hab.bare_eq, hmn]
  · simp only [Node.bareAll, Node.bare, hab.bare_eq]

@[grind ←] theorem declarator_rests (h : p.Resting more inner) (word : DeclarationWord)
    (ds : List Comment) : (p.readers more).Rests (declarator inner word ds) := by
  unfold declarator
  grind

theorem declarations_keeps (h : p.Paired more inner) :
    (p.readers more).Keeps (declarations inner) (declarations inner)
      fun ms ns => Node.bareAll ms = Node.bareAll ns := by
  have hrest := h.resting
  refine token_keeps.bind (fun a b hab => ?_) (by grind)
  refine advance_keeps.bind (fun _ _ _ => ?_) (by grind)
  rw [hab.congr (·.value) fun _ => rfl]
  refine (declarator_keeps h _ _ _).bind (fun ms ns hfirst => ?_) (by grind)
  refine (many_keeps (afterComma_keeps (declarator_keeps h _ [] []) (by grind)) (by grind)).bind
    (fun _ _ hmore => ?_) (by grind)
  refine terminator_keeps.bind (fun _ _ _ => .pure ?_) (by grind)
  rw [Node.bareAll_append, Node.bareAll_append, hfirst, Node.bareAll_flatten hmore]

/-- The comments of a return do not change what it says. -/
theorem returned_bareAll {m n : Node} (hmn : m.bare = n.bare) {ms ns : List Node}
    (h : List.Forall₂ (fun m n => m.bare = n.bare) ms ns) (cs ds : List Comment) :
    Node.bareAll (returned cs m ms) = Node.bareAll (returned ds n ns) := by
  have hbare (cs : List Comment) (n : Node) :
      (if cs.isEmpty then n else n.withComments cs).bare = n.bare := by
    split
    · rfl
    · exact Node.bare_withComments cs n
  induction h generalizing m n cs ds with
  | nil => simp only [returned, Node.bareAll, Node.bare, hmn]
  | cons hmn' _ ih => simp only [returned, Node.bareAll, hbare, hmn, ih hmn' [] []]

theorem returns_keeps (h : p.Paired more inner) :
    (p.readers more).Keeps (returns inner) (returns inner)
      fun ms ns => Node.bareAll ms = Node.bareAll ns := by
  have hrest := h.resting
  refine token_keeps.bind (fun a b hab => ?_) (by grind)
  refine advance_keeps.bind (fun c d hcd => ?_) (by grind)
  refine .ite (hcd.test (fun t => t.isPunctuation ";" || t.isPunctuation "\x7d" || t.isEof)
    fun _ => rfl) (fun _ => ?_) fun _ => ?_
  · exact terminator_keeps.bind (fun _ _ _ => .pure rfl) (by grind)
  refine h.expression.bind (fun m n hmn => ?_) (by grind)
  refine (many_keeps (afterComma_keeps h.expression (by grind)) (by grind)).bind
    (fun ms ns hmore => ?_) (by grind)
  exact terminator_keeps.bind (fun _ _ _ => .pure (returned_bareAll hmn hmore _ _)) (by grind)

theorem read_keepsAt (h : p.Paired more inner) (u : Token) :
    p.KeepsAt more u (read inner) (read inner) fun ms ns => Node.bareAll ms = Node.bareAll ns := by
  have hrest := h.resting
  have hconstruct : (p.readers more).Keeps (do return [← Construct.node inner])
      (do return [← Construct.node inner]) fun ms ns => Node.bareAll ms = Node.bareAll ns :=
    (Construct.node_keeps h).bind (fun _ _ hmn => .pure (by simp only [Node.bareAll, hmn]))
      (by grind)
  refine token_bind_keepsAt fun a hab => ?_
  rw [Construct.isLabel_eq, Construct.isLabel_eq, hab.congr (·.kind) fun _ => rfl]
  refine (looksPast_lockstep (fun _ => rfl) isPunctuation_of_isEof u).bind ?_ ?_
  · rintro labelled _ r r' ⟨rfl, hstand⟩
    refine (?_ : p.KeepsAt more u _ _ _) r r' hstand
    cases hu : u.kind with
    | keyword =>
      rw [hab.congr (·.value) fun _ => rfl]
      refine .ite Iff.rfl (fun _ => functionDeclaration_keepsAt h u) fun _ => ?_
      refine Pairing.keepsAt_of_keeps (.ite Iff.rfl (fun _ => declarations_keeps h) fun _ => ?_)
      refine .ite Iff.rfl (fun _ => returns_keeps h) fun _ => .ite Iff.rfl (fun _ => ?_) fun _ => ?_
      · refine advance_keeps.bind (fun _ _ _ => ?_) (by grind)
        exact terminator_keeps.bind (fun _ _ _ => .pure rfl) (by grind)
      refine .ite (hab.test (·.opensConstruct) fun _ => rfl) (fun _ => hconstruct) fun _ => ?_
      exact .throw hab.invalidStatement
    | punctuation =>
      rw [hab.congr (·.value) fun _ => rfl]
      refine Pairing.keepsAt_of_keeps (.ite Iff.rfl (fun _ => ?_) fun _ => .ite Iff.rfl
        (fun _ => ?_) fun _ => .ite Iff.rfl (fun _ => expressions_keeps h) fun _ => .throw hab.invalidStatement)
      · refine (Expression.braces_keeps h).bind (fun _ _ hbody => .pure ?_) (by grind)
        simp only [Node.bareAll, Node.bare, hbody]
      · exact advance_keeps.bind (fun _ _ _ => .pure rfl) (by grind)
    | name =>
      exact Pairing.keepsAt_of_keeps
        (.ite Iff.rfl (fun _ => hconstruct) fun _ => expressions_keeps h)
    | atom | string | number | regexp | operator =>
      exact Pairing.keepsAt_of_keeps (expressions_keeps h)
    | eof => exact Pairing.keepsAt_of_keeps (.throw hab.invalidStatement)
  · rintro _ r ⟨rfl, hasks, hlast⟩
    have hname : u.kind = .name := by simpa using hasks
    simp only [hname, Bool.false_eq_true, if_false]
    exact expressions_ends hrest r (hlast.mono fun v hv => hv ▸ hname)

end Statement

namespace Pairing

variable {p : Pairing} {more : List (Except LexError Token)}

theorem resting_within (p : Pairing) (more : List (Except LexError Token)) (depth : Nat) :
    p.Resting more (.within depth) := by
  induction depth with
  | zero =>
    exact ⟨Reader.tooDeep_ends, Reader.tooDeep_ends, Reader.tooDeep_ends, Reader.tooDeep_ends,
      Reader.tooDeep_ends⟩
  | succ depth ih =>
    exact ⟨Reader.nested_rests (Expression.read_rests ih),
      Reader.nested_rests (Expression.value_rests ih),
      Reader.nested_rests (Construct.read_rests ih),
      Reader.nested_last_ends (Expression.read_ends ih),
      Reader.nested_last_ends Expression.value_ends⟩

theorem paired_within (p : Pairing) (more : List (Except LexError Token)) (depth : Nat) :
    p.Paired more (.within depth) := by
  induction depth with
  | zero =>
    exact ⟨resting_within p more 0, fun _ => keepsAt_of_keeps Reader.tooDeep_keeps,
      Reader.tooDeep_keeps, Reader.tooDeep_keeps, Reader.tooDeep_keeps⟩
  | succ depth ih =>
    exact ⟨resting_within p more (depth + 1),
      fun u => Reader.nested_keepsAt (Statement.read_keepsAt ih u),
      Reader.nested_keeps (Expression.read_keeps ih),
      Reader.nested_keeps (Expression.value_keeps ih),
      Reader.nested_keeps (Construct.read_keeps ih)⟩

end Pairing

/-- A whole script, read from two sources whose tokens correspond. -/
theorem Script.read_keeps (p : Pairing) (more : List (Except LexError Token)) :
    (p.readers more).Keeps read read fun ms ns => Node.bareAll ms = Node.bareAll ns := by
  refine (Expression.block_keeps (p.paired_within more nestingLimit)).bind
    (fun ms ns hbody => ?_) fun ns => ?_
  · refine Reader.token_bind_keeps (fun a b hab => Pairing.keepsAt_of_keeps ?_) fun b hb => ?_
    · exact .ite (hab.test (·.isEof) fun _ => rfl) (fun _ => .pure hbody)
        fun _ => .throw hab.invalidStatement
    · rw [if_pos (p.eof_of_stop hb)]
      exact .pure ns
  · refine Reader.token_bind_rests fun b hb => ?_
    rw [if_pos (p.eof_of_stop hb)]
    exact .pure ns

theorem Pairing.readings_ofFeed {p : Pairing} {more : List (Except LexError Token)}
    {f g : TokenFeed} (h : p.Feeds more f g) :
    (p.readers more).abreast (.ofFeed f) (.ofFeed g) :=
  ⟨⟨h, rfl, .none, .none, fun _ => rfl⟩, rfl, .nil, rfl⟩

/-- Scripts from two sources whose tokens correspond say the same, or fail alike, unless
the second source ends before the first. -/
theorem Script.ofFeed_abreast {p : Pairing} {more : List (Except LexError Token)}
    {f g : TokenFeed} (h : p.Feeds more f g) :
    match Script.ofFeed g with
    | .ok t => (∃ s, Script.ofFeed f = .ok s ∧ Node.bareAll s.body = Node.bareAll t.body ∧
        List.Forall₂ p.Warned s.warnings t.warnings) ∨ ∃ u, p.stop u
    | .error e => (∃ d, Script.ofFeed f = .error d ∧ p.Fails d e) ∨ p.Cut e := by
  have hrun := Script.read_keeps p more _ _ (Pairing.readings_ofFeed h)
  unfold Script.ofFeed
  cases hg : Script.read (.ofFeed g) with
  | ok ns r' =>
    rw [hg] at hrun
    rcases hrun with ⟨ms, r, hf, hbody, -, hnoted⟩ | hover
    · exact .inl ⟨{ body := ms, warnings := r.warnings }, by rw [hf], hbody, hnoted.warnings⟩
    · exact .inr hover.exists_stop
  | error e r' =>
    rw [hg] at hrun
    rcases hrun with ⟨d, r, hf, hde⟩ | hcut
    · exact .inl ⟨d, by rw [hf], hde⟩
    · exact .inr hcut

/-- Where neither source ends before the other, both scripts are read or both fail. -/
theorem Script.ofFeed_whole {p : Pairing} (hstop : ∀ u, ¬ p.stop u) {f g : TokenFeed}
    (h : p.Feeds [] f g) :
    (∃ s t, Script.ofFeed f = .ok s ∧ Script.ofFeed g = .ok t ∧
      Node.bareAll s.body = Node.bareAll t.body ∧
      List.Forall₂ p.Warned s.warnings t.warnings) ∨
    ∃ d e, Script.ofFeed f = .error d ∧ Script.ofFeed g = .error e ∧ p.Fails d e := by
  have hruns := ofFeed_abreast h
  cases hg : Script.ofFeed g with
  | ok t =>
    rw [hg] at hruns
    obtain ⟨s, hs, hbody, hwarnings⟩ | ⟨u, hu⟩ := hruns
    · exact .inl ⟨s, t, hs, rfl, hbody, hwarnings⟩
    · exact absurd hu (hstop u)
  | error e =>
    rw [hg] at hruns
    obtain ⟨d, hd, hfails⟩ | ⟨u, hu, -⟩ := hruns
    · exact .inr ⟨d, e, hd, rfl, hfails⟩
    · exact absurd hu (hstop u)

end ScriptOutline
