/-
How many guarded readers are at work.

`SameAt c x y` says that from a reading of depth `c` the readers `x` and `y` do the same and
come back to that depth, whether they succeed or fail.  Every reader is made of guarded
readers so that it is the same whenever those are.  With equal readers this says that a level
is left as often as it is entered; with others it says what cannot be told from inside: what
lies below the last level, and what is done at a depth that is never reached.
-/
import ScriptOutline.Proofs.AbreastScript

namespace ScriptOutline

variable {α β : Type} {c : Nat}

namespace Reader

/-- Where `c` guarded readers are at work, both readers do the same, and `c` guarded readers
are at work when they are done. -/
structure SameAt (c : Nat) (x y : Reader α) : Prop where
  same : ∀ r, r.depth = c → x r = y r
  returns : Runs (·.depth = c) x (fun _ r => r.depth = c) (·.depth = c)

variable {x x' : Reader α} {f f' : α → Reader β}

namespace SameAt

theorem pure (a : α) : SameAt c (Pure.pure a : Reader α) (Pure.pure a) :=
  ⟨fun _ _ => rfl, .pure fun _ hr => hr⟩

theorem throw (e : ReadError) :
    SameAt c (MonadExcept.throw e : Reader α) (MonadExcept.throw e) :=
  ⟨fun _ _ => rfl, .throw fun _ hr => hr⟩

theorem bind (hx : SameAt c x x') (hf : ∀ a, SameAt c (f a) (f' a)) :
    SameAt c (x >>= f) (x' >>= f') := by
  refine ⟨fun r hr => ?_, hx.returns.bind fun a => (hf a).returns⟩
  have hrun := hx.returns r hr
  rw [bind_run, bind_run, ← hx.same r hr]
  cases h : x r with
  | ok a r' =>
    rw [h] at hrun
    exact (hf a).same r' hrun
  | error e r' => rfl

theorem ite {p : Prop} [Decidable p] {y y' : Reader α} (hx : SameAt c x x')
    (hy : SameAt c y y') : SameAt c (if p then x else y) (if p then x' else y') := by
  split
  · exact hx
  · exact hy

theorem collect {step step' : β → Reader (Option (α × β))}
    (h : ∀ b, SameAt c (step b) (step' b)) (b : β) :
    SameAt c (Repeat.collect Reading.remaining step b)
      (Repeat.collect Reading.remaining step' b) := by
  have hsame := fun b => (h b).same
  have hreturns := fun b => (h b).returns
  exact ⟨fun r hr => (Repeat.collect_congr hsame hreturns b hr).1,
    fun r hr => (Repeat.collect_congr hsame hreturns b hr).2⟩

theorem many {step step' : Reader (Option α)} (h : SameAt c step step') :
    SameAt c (Reader.many step) (Reader.many step') :=
  collect (fun _ => h.bind fun _ => .pure _) ()

theorem onStream (n : Streaming α) : SameAt c (Reader.onStream n) (Reader.onStream n) := by
  refine ⟨fun _ _ => rfl, fun r hr => ?_⟩
  rw [Reader.onStream]
  cases n r.stream with
  | ok a s => exact hr
  | error e s => exact hr

theorem warn (t : Token) (cause : WarningCause) :
    SameAt c (Reader.warn t cause) (Reader.warn t cause) := ⟨fun _ _ => rfl, fun _ hr => hr⟩

@[grind ←] theorem token : SameAt c Reader.token Reader.token := .onStream _

@[grind ←] theorem peek : SameAt c Reader.peek Reader.peek := .onStream _

@[grind ←] theorem advance : SameAt c Reader.advance Reader.advance := .onStream _

@[grind ←] theorem expect (p : TokenPattern) : SameAt c (Reader.expect p) (Reader.expect p) :=
  .onStream _

@[grind ←] theorem group : SameAt c Reader.group Reader.group := .onStream _

@[grind ←] theorem gather (ends : Nat → Token → Bool) :
    SameAt c (Reader.gather ends) (Reader.gather ends) := .onStream _

@[grind ←] theorem pass (value : String) : SameAt c (Reader.pass value) (Reader.pass value) :=
  .bind (.onStream _) fun _ => .bind (.onStream _) fun _ => .pure _

theorem tooDeep : SameAt c (Reader.tooDeep : Reader α) Reader.tooDeep :=
  .bind (.onStream _) fun _ => .throw _

/-- At the limit it does not matter what would be read. -/
theorem nested_full (hc : nestingLimit ≤ c) (x : Reader α) :
    SameAt c (Reader.nested x) (Reader.tooDeep : Reader α) := by
  have hfull (r : Reading) (hr : r.depth = c) : Reader.nested x r = Reader.tooDeep r := by
    rw [Reader.nested, if_pos (by omega)]
  refine ⟨hfull, fun r hr => ?_⟩
  rw [hfull r hr]
  exact tooDeep.returns r hr

/-- A level that is entered is left again, and none is entered beyond the limit. -/
theorem nested (h : c < nestingLimit → SameAt (c + 1) x x') :
    SameAt c (Reader.nested x) (Reader.nested x') := by
  by_cases hc : c < nestingLimit
  · have hx := h hc
    have hopen (r : Reading) (hr : r.depth = c) : ¬ nestingLimit ≤ r.depth := by omega
    have hdeeper (r : Reading) (hr : r.depth = c) : r.deeper.depth = c + 1 := by
      show r.depth + 1 = c + 1
      omega
    have hback (r : Reading) (hr : r.depth = c + 1) : r.shallower.depth = c := by
      show r.depth - 1 = c
      omega
    constructor
    · intro r hr
      rw [Reader.nested, Reader.nested, if_neg (hopen r hr), if_neg (hopen r hr),
        hx.same r.deeper (hdeeper r hr)]
    · intro r hr
      have hrun := hx.returns r.deeper (hdeeper r hr)
      rw [Reader.nested, if_neg (hopen r hr)]
      cases hxr : x r.deeper with
      | ok a r' =>
        rw [hxr] at hrun
        exact hback r' hrun
      | error e r' =>
        rw [hxr] at hrun
        exact hback r' hrun
  · have hfull := nested_full (Nat.le_of_not_lt hc) x
    have hfull' := nested_full (Nat.le_of_not_lt hc) x'
    exact ⟨fun r hr => (hfull.same r hr).trans (hfull'.same r hr).symm, hfull.returns⟩

end SameAt
end Reader

/-- The readers of two levels do the same where `c` guarded readers are at work. -/
structure Readers.SameAt (c : Nat) (inner inner' : Readers) : Prop where
  statement : Reader.SameAt c inner.statement inner'.statement
  expression : Reader.SameAt c inner.expression inner'.expression
  value : Reader.SameAt c inner.value inner'.value
  construct : Reader.SameAt c inner.construct inner'.construct

attribute [grind →] Readers.SameAt.statement Readers.SameAt.expression Readers.SameAt.value
  Readers.SameAt.construct

variable {inner inner' : Readers}

theorem Reader.looksPast_same (asks : Bool) (q : Token → Bool) :
    Reader.SameAt c (Reader.looksPast asks q) (Reader.looksPast asks q) :=
  .ite (.bind .peek fun _ => .pure _) (.pure _)

namespace Construct

open Reader

@[grind ←] theorem isLabel_same (t : Token) : SameAt c (isLabel t) (isLabel t) := by
  rw [isLabel_eq]
  exact looksPast_same _ _

@[grind ←] theorem leaf_same : SameAt c leaf leaf :=
  .bind .token fun _ => .bind .advance fun _ => .pure _

@[grind ←] theorem bracketed_same (opening : String) :
    SameAt c (bracketed opening) (bracketed opening) := .bind (.expect _) fun _ => .group

@[grind ←] theorem semicolon_same : SameAt c semicolon semicolon :=
  .bind .token fun _ => .ite (.bind .advance fun _ => .pure _) (.pure _)

@[grind ←] theorem rest_same : SameAt c rest rest :=
  .bind (.gather _) fun _ => .bind semicolon_same fun _ => .pure _

@[grind ←] theorem body_same (h : inner.SameAt c inner') : SameAt c (body inner) (body inner') := by
  refine .bind .token fun t => .ite (.bind .group fun _ => .pure _) ?_
  exact .bind (isLabel_same t) fun _ => .ite (.bind h.construct fun _ => .pure _) rest_same

@[grind ←] theorem catchClause_same : SameAt c catchClause catchClause := by
  refine .bind .token fun _ => .ite (.bind leaf_same fun _ => ?_) (.pure _)
  exact .bind (bracketed_same _) fun _ => .bind (bracketed_same _) fun _ => .pure _

@[grind ←] theorem optional_same (word : String) {then_ then' : Reader (List TokenTree)}
    (h : SameAt c then_ then') : SameAt c (optional word then_) (optional word then') :=
  .bind .token fun _ => .ite (.bind leaf_same fun _ => .bind h fun _ => .pure _) (.pure _)

@[grind ←] theorem afterKeyword_same (h : inner.SameAt c inner') (keyword : String) :
    SameAt c (afterKeyword inner keyword) (afterKeyword inner' keyword) := by
  have hbody := body_same h
  unfold afterKeyword
  split
  case h_1 =>
    refine .bind (bracketed_same _) fun _ => .bind hbody fun _ => ?_
    exact .bind (optional_same _ hbody) fun _ => .pure _
  case h_2 | h_3 | h_4 => exact .bind (bracketed_same _) fun _ => .bind hbody fun _ => .pure _
  case h_5 =>
    refine .bind hbody fun _ => .bind (.expect _) fun _ => .bind leaf_same fun _ => ?_
    exact .bind (bracketed_same _) fun _ => .bind semicolon_same fun _ => .pure _
  case h_6 => exact .bind (bracketed_same _) fun _ => .bind (bracketed_same _) fun _ => .pure _
  case h_7 =>
    refine .bind (bracketed_same _) fun _ => .bind (.many catchClause_same) fun _ => ?_
    refine .bind (optional_same _ ?_) fun _ => .pure _
    exact .bind (bracketed_same _) fun _ => .pure _
  case h_8 | h_9 =>
    have hbehind (label : List TokenTree) : SameAt c (do return label ++ (← semicolon))
        (do return label ++ (← semicolon)) := .bind semicolon_same fun _ => .pure _
    refine .bind .token fun _ => .ite ?_ (hbehind _)
    exact .bind (.bind leaf_same fun _ => .pure _) hbehind
  case h_10 => exact rest_same

@[grind ←] theorem read_same (h : inner.SameAt c inner') : SameAt c (read inner) (read inner') := by
  refine .bind .token fun keyword => .bind .advance fun _ => .ite ?_ (afterKeyword_same h _)
  exact .bind (.expect _) fun _ => .bind .advance fun _ => .bind (body_same h) fun _ => .pure _

@[grind ←] theorem node_same (h : inner.SameAt c inner') : SameAt c (node inner) (node inner') := by
  refine .bind .token fun keyword => .bind (read_same h) fun trees => ?_
  exact .bind (.warn _ _) fun _ => .pure _

end Construct

namespace Expression

open Reader

@[grind ←] theorem rest_same : SameAt c rest rest := .gather _

@[grind ←] theorem continuation_same : SameAt c continuation continuation :=
  .bind .token fun _ => .ite (.pure _) rest_same

@[grind ←] theorem tail_same : SameAt c tail tail := by
  refine .bind .token fun t => .ite (.pure _) ?_
  exact .bind rest_same fun trees => .bind (.warn _ _) fun _ => .pure _

@[grind ←] theorem dropTail_same : SameAt c dropTail dropTail := .bind tail_same fun _ => .pure _

/-- What stands behind an item of a list. -/
theorem separated_same (t : Token) (closing : String) (a : α) :
    SameAt c
      (if t.isPunctuation "," = true then do
        let _ ← advance
        return some a
      else do
        let _ ← expectPunctuation closing
        return some a)
      (if t.isPunctuation "," = true then do
        let _ ← advance
        return some a
      else do
        let _ ← expectPunctuation closing
        return some a) :=
  .ite (.bind .advance fun _ => .pure _) (.bind (.expect _) fun _ => .pure _)

@[grind ←] theorem argument_same (h : inner.SameAt c inner') :
    SameAt c (argument inner) (argument inner') := by
  refine .bind .token fun _ => .ite (.pure _) (.bind h.expression fun node => ?_)
  exact .bind .token fun t => separated_same t _ node

@[grind ←] theorem arguments_same (h : inner.SameAt c inner') :
    SameAt c (arguments inner) (arguments inner') := by
  refine .bind (.pass _) fun _ => .bind (.many (argument_same h)) fun nodes => ?_
  exact .bind .advance fun _ => .pure _

@[grind ←] theorem element_same (h : inner.SameAt c inner') :
    SameAt c (element inner) (element inner') := by
  refine .bind .token fun _ => .ite (.pure _) (.ite (.bind .advance fun _ => .pure _) ?_)
  exact .bind h.expression fun node => .bind .token fun t => separated_same t _ node

@[grind ←] theorem elements_same (h : inner.SameAt c inner') :
    SameAt c (elements inner) (elements inner') := by
  refine .bind .advance fun _ => .bind (.many (element_same h)) fun nodes => ?_
  exact .bind .advance fun _ => .pure _

@[grind ←] theorem block_same (h : inner.SameAt c inner') : SameAt c (block inner) (block inner') := by
  refine .bind (.many (.bind .token fun _ => .ite (.pure _) ?_)) fun _ => .pure _
  exact .bind h.statement fun _ => .pure _

@[grind ←] theorem braces_same (h : inner.SameAt c inner') :
    SameAt c (braces inner) (braces inner') :=
  .bind (.pass _) fun _ => .bind (block_same h) fun _ => .bind (.pass _) fun _ => .pure _

@[grind ←] theorem parameter_same : SameAt c parameter parameter := by
  refine .bind .token fun _ => .ite (.pure _) (.bind (.expect _) fun name => ?_)
  exact .bind .advance fun t => separated_same t _ name

@[grind ←] theorem functionName_same : SameAt c functionName functionName := by
  refine SameAt.advance.bind fun t => .ite (.bind .advance fun _ => .pure _) ?_
  exact ⟨fun _ _ => rfl, fun _ hr => hr⟩

@[grind ←] theorem function_same (h : inner.SameAt c inner') :
    SameAt c (function inner) (function inner') := by
  refine .bind (.expect _) fun _ => .bind functionName_same fun name => .bind (.pass _) fun _ => ?_
  exact .bind (.many parameter_same) fun _ => .bind .advance fun _ =>
    .bind (braces_same h) fun _ => .pure _

theorem closedBehind_same (lead : Token) :
    SameAt c (closedBehind lead) (closedBehind lead) :=
  .ite (.bind .token fun _ => .pure _) (.pure _)

theorem calledOrNot_same (h : inner.SameAt c inner') (comments : List Comment)
    (head : FunctionHead) (body : List Node) (opened : Bool) :
    SameAt c (calledOrNot inner comments head body opened)
      (calledOrNot inner' comments head body opened) := by
  refine .bind .token fun _ => .ite (.bind (arguments_same h) fun _ => .ite ?_ ?_) ?_
  · exact .bind (.pass _) fun _ => .bind dropTail_same fun _ => .pure _
  · exact .bind dropTail_same fun _ => .pure _
  · refine .bind dropTail_same fun _ => .ite ?_ (.pure _)
    exact .bind (.pass _) fun _ => .bind dropTail_same fun _ => .pure _

@[grind ←] theorem immediate_same (h : inner.SameAt c inner') :
    SameAt c (immediate inner) (immediate inner') := by
  rw [immediate_eq, immediate_eq]
  refine .bind .token fun lead => .bind .advance fun keyword => .bind (function_same h) ?_
  rintro ⟨head, body⟩
  refine .bind (closedBehind_same lead) fun closed => .ite ?_ (calledOrNot_same h _ _ _ _)
  exact .bind .advance fun _ => calledOrNot_same h _ _ _ _

@[grind ←] theorem property_same : SameAt c property property := by
  refine .bind .token fun t => .ite (.bind .advance fun name => ?_) (.ite ?_ (.pure _))
  · exact .ite (.bind .advance fun _ => .pure _) (.throw _)
  · refine .bind .group fun tree => ?_
    cases stringKey? tree with
    | some key => exact .pure _
    | none => exact .pure _

@[grind ←] theorem properties_same : SameAt c properties properties := by
  refine .collect (fun known => .ite (.bind property_same fun o => ?_) (.pure _)) true
  match o with
  | none => exact .pure _
  | some (.name t) => exact .pure _
  | some (.computed t) => exact .pure _

@[grind ←] theorem path_same : SameAt c path path := by
  refine .bind .token fun root => .bind .advance fun _ => .bind properties_same fun ps => ?_
  cases pathOf root ps with
  | ok path => exact .pure _
  | error opener => exact .bind (.warn _ _) fun _ => .pure _

theorem linkFrom_same (h : inner.SameAt c inner') (comments : List Comment) :
    SameAt c (linkFrom inner comments) (linkFrom inner' comments) := by
  refine .bind path_same fun path => .bind .token fun t => .ite ?_ (.pure _)
  refine .bind (arguments_same h) fun arguments => ?_
  cases path with
  | some callee => exact .pure _
  | none => exact .pure _

@[grind ←] theorem link_same (h : inner.SameAt c inner') : SameAt c (link inner) (link inner') := by
  rw [link_eq, link_eq]
  refine .bind .token fun t => .ite ?_ (.pure _)
  exact .bind .advance fun first => .ite (linkFrom_same h _) (.throw _)

@[grind ←] theorem referenceTo_same (h : inner.SameAt c inner') (comments : List Comment)
    (path : Option SymbolPath) :
    SameAt c (referenceTo inner comments path) (referenceTo inner' comments path) := by
  refine .bind .token fun _ => .ite ?_ (.bind tail_same fun _ => .pure _)
  refine .bind (arguments_same h) fun _ => .bind (.many (link_same h)) fun _ => ?_
  exact .bind tail_same fun _ => .pure _

@[grind ←] theorem primitive_same (kind : PrimitiveKind) (t : Token) :
    SameAt c (primitive kind t) (primitive kind t) :=
  .bind .advance fun _ => .ite (.pure _) (.bind rest_same fun _ => .pure _)

@[grind ←] theorem value_same (h : inner.SameAt c inner') : SameAt c (value inner) (value inner') := by
  refine .bind .token fun t => ?_
  cases primitiveKind? t with
  | some kind => exact primitive_same kind t
  | none =>
  refine .ite ?_ (.ite ?_ (.ite ?_ (.ite ?_ (.ite ?_ (.ite ?_ (.ite (.throw _) (.throw _)))))))
  · refine .bind (function_same h) ?_
    rintro ⟨head, body⟩
    exact .bind dropTail_same fun _ => .pure _
  · exact .bind .group fun _ => .bind continuation_same fun _ => .pure _
  · exact .bind (elements_same h) fun nodes => .bind dropTail_same fun _ => .pure _
  · exact .bind .group fun _ => .bind continuation_same fun _ => .pure _
  · exact .bind path_same fun path => referenceTo_same h _ path
  · exact .bind .advance fun _ => .bind h.expression fun node => .pure _

@[grind ←] theorem assignmentOrReference_same (h : inner.SameAt c inner') (t : Token) :
    SameAt c (assignmentOrReference inner t) (assignmentOrReference inner' t) := by
  refine .bind path_same fun path => .bind .token fun operator => ?_
  cases path with
  | none => exact referenceTo_same h _ _
  | some target =>
    refine .ite ?_ (referenceTo_same h _ _)
    exact .bind .advance fun _ => .bind h.expression fun value => .pure _

@[grind ←] theorem read_same (h : inner.SameAt c inner') : SameAt c (read inner) (read inner') := by
  rw [read_eq, read_eq]
  refine .bind .token fun t => .bind (looksPast_same _ _) fun invoked => ?_
  refine .ite (immediate_same h) (.ite (assignmentOrReference_same h t) (.ite ?_ h.value))
  exact .bind .advance fun _ => .bind rest_same fun _ => .pure _

end Expression

/-! ## Statements -/

namespace Statement

open Reader

@[grind ←] theorem terminator_same : SameAt c terminator terminator := by
  refine .bind .token fun _ => .ite (.bind .advance fun _ => .pure _) (.ite (.pure _) ?_)
  exact .bind (.expect _) fun _ => .pure _

@[grind ←] theorem afterComma_same {x x' : Reader α} (h : SameAt c x x') :
    SameAt c (afterComma x) (afterComma x') :=
  .bind .token fun _ => .ite (.bind .advance fun _ => .bind h fun _ => .pure _) (.pure _)

@[grind ←] theorem expressions_same (h : inner.SameAt c inner') :
    SameAt c (expressions inner) (expressions inner') := by
  refine .bind h.expression fun _ => .bind (.many (afterComma_same h.expression)) fun _ => ?_
  exact .bind terminator_same fun _ => .pure _

@[grind ←] theorem functionDeclaration_same (h : inner.SameAt c inner') :
    SameAt c (functionDeclaration inner) (functionDeclaration inner') := by
  refine .bind .token fun keyword => .bind .peek fun name => .ite (.throw _) ?_
  refine .bind (Expression.function_same h) ?_
  rintro ⟨head, body⟩
  exact .pure _

@[grind ←] theorem declarator_same (h : inner.SameAt c inner') (word : DeclarationWord)
    (leading : List Comment) :
    SameAt c (declarator inner word leading) (declarator inner' word leading) := by
  refine .bind (.expect _) fun name => .bind .advance fun t => .ite ?_ (.pure _)
  exact .bind .advance fun _ => .bind h.expression fun value => .pure _

@[grind ←] theorem declarations_same (h : inner.SameAt c inner') :
    SameAt c (declarations inner) (declarations inner') := by
  refine .bind .token fun keyword => .bind .advance fun _ => ?_
  refine .bind (declarator_same h _ _) fun first => ?_
  refine .bind (.many (afterComma_same (declarator_same h _ _))) fun more => ?_
  exact .bind terminator_same fun _ => .pure _

@[grind ←] theorem returns_same (h : inner.SameAt c inner') :
    SameAt c (returns inner) (returns inner') := by
  refine .bind .token fun keyword => .bind .advance fun t => .ite ?_ ?_
  · exact .bind terminator_same fun _ => .pure _
  · refine .bind h.expression fun first => .bind (.many (afterComma_same h.expression)) fun more => ?_
    exact .bind terminator_same fun _ => .pure _

@[grind ←] theorem read_same (h : inner.SameAt c inner') : SameAt c (read inner) (read inner') := by
  have hconstruct : SameAt c (do return [← Construct.node inner])
      (do return [← Construct.node inner']) := .bind (Construct.node_same h) fun _ => .pure _
  refine .bind .token fun t => .bind (Construct.isLabel_same t) fun labelled => ?_
  cases t.kind with
  | keyword =>
    refine .ite (functionDeclaration_same h) (.ite (declarations_same h) (.ite (returns_same h) ?_))
    refine .ite ?_ (.ite hconstruct (.throw _))
    exact .bind .advance fun _ => .bind terminator_same fun _ => .pure _
  | punctuation =>
    refine .ite ?_ (.ite ?_ (.ite (expressions_same h) (.throw _)))
    · exact .bind (Expression.braces_same h) fun body => .pure _
    · exact .bind .advance fun _ => .pure _
  | name => exact .ite hconstruct (expressions_same h)
  | atom | string | number | regexp | operator => exact expressions_same h
  | eof => exact .throw _

end Statement

namespace Readers

open Reader

theorem SameAt.around (h : c < nestingLimit → inner.SameAt (c + 1) inner') :
    (around inner).SameAt c (around inner') :=
  ⟨.nested fun hc => Statement.read_same (h hc), .nested fun hc => Expression.read_same (h hc),
    .nested fun hc => Expression.value_same (h hc), .nested fun hc => Construct.read_same (h hc)⟩

/-- Every reader comes back to the depth from which it starts. -/
theorem within_same (n c : Nat) : (within n).SameAt c (within n) := by
  induction n generalizing c with
  | zero => exact ⟨.tooDeep, .tooDeep, .tooDeep, .tooDeep⟩
  | succ n ih => exact .around fun _ => ih (c + 1)

/-- The readers `n` levels above `bottom`. -/
def above (bottom : Readers) : Nat → Readers
  | 0 => bottom
  | n + 1 => around (above bottom n)

/-- Under the limit it does not matter what lies below the last level, nor how many levels
there are. -/
theorem above_same (bottom : Readers) {n d : Nat} (hd : c + d = nestingLimit) (hn : d < n) :
    (above bottom n).SameAt c (within d) := by
  obtain ⟨m, rfl⟩ : ∃ m, n = m + 1 := ⟨n - 1, by omega⟩
  induction d generalizing c m with
  | zero =>
    -- here the guard gives up, as the readers below the last level do
    have hc : nestingLimit ≤ c := Nat.le_of_eq hd.symm
    exact ⟨.nested_full hc _, .nested_full hc _, .nested_full hc _, .nested_full hc _⟩
  | succ d ih =>
    obtain ⟨k, rfl⟩ : ∃ k, m = k + 1 := ⟨m - 1, by omega⟩
    exact .around fun _ => ih (by omega) k (by omega)

/-- Run `x` where `c` guarded readers are at work, and `alarm` anywhere else. -/
def watch (c : Nat) (alarm x : Reader α) : Reader α := fun r => if r.depth = c then x r else alarm r

/-- The readers for scripts nested at most `n` deep.  Whenever one of them is entered, the
counter has to be at the number of levels above, this one included. -/
def watched (alarm : Readers) : Nat → Readers
  | 0 => exhausted
  | n + 1 =>
    { statement := nested (watch (nestingLimit - n) alarm.statement (Statement.read (watched alarm n)))
      expression :=
        nested (watch (nestingLimit - n) alarm.expression (Expression.read (watched alarm n)))
      value := nested (watch (nestingLimit - n) alarm.value (Expression.value (watched alarm n)))
      construct :=
        nested (watch (nestingLimit - n) alarm.construct (Construct.read (watched alarm n))) }

theorem watch_same {alarm x x' : Reader α} (h : Reader.SameAt c x x') :
    Reader.SameAt c (watch c alarm x) x' := by
  have hwatch (r : Reading) (hr : r.depth = c) : watch c alarm x r = x r := if_pos hr
  constructor
  · intro r hr
    rw [hwatch r hr, h.same r hr]
  · intro r hr
    rw [hwatch r hr]
    exact h.returns r hr

/-- The counter is always where it has to be. -/
theorem watched_same (alarm : Readers) {d : Nat} (hd : c + d = nestingLimit) :
    (watched alarm d).SameAt c (within d) := by
  induction d generalizing c with
  | zero => exact ⟨.tooDeep, .tooDeep, .tooDeep, .tooDeep⟩
  | succ d ih =>
    have hinner := ih (show c + 1 + d = nestingLimit by omega)
    have hc : nestingLimit - d = c + 1 := by omega
    rw [watched, hc]
    exact ⟨.nested fun _ => watch_same (Statement.read_same hinner),
      .nested fun _ => watch_same (Expression.read_same hinner),
      .nested fun _ => watch_same (Expression.value_same hinner),
      .nested fun _ => watch_same (Construct.read_same hinner)⟩

end Readers

/-- The readers that scripts are read with, on top of those of a level. -/
inductive Readers.Part (inner : Readers) : {α : Type} → Reader α → Prop where
  | token : Part inner Reader.token
  | peek : Part inner Reader.peek
  | advance : Part inner Reader.advance
  | expect (p : TokenPattern) : Part inner (Reader.expect p)
  | group : Part inner Reader.group
  | gather (ends : Nat → Token → Bool) : Part inner (Reader.gather ends)
  | pass (value : String) : Part inner (Reader.pass value)
  | innerStatement : Part inner inner.statement
  | innerExpression : Part inner inner.expression
  | innerValue : Part inner inner.value
  | innerConstruct : Part inner inner.construct
  | isLabel (t : Token) : Part inner (Construct.isLabel t)
  | leaf : Part inner Construct.leaf
  | bracketed (opening : String) : Part inner (Construct.bracketed opening)
  | semicolon : Part inner Construct.semicolon
  | constructRest : Part inner Construct.rest
  | constructBody : Part inner (Construct.body inner)
  | catchClause : Part inner Construct.catchClause
  | optional (word : String) {then_ : Reader (List TokenTree)} (h : Part inner then_) :
    Part inner (Construct.optional word then_)
  | afterKeyword (keyword : String) : Part inner (Construct.afterKeyword inner keyword)
  | construct : Part inner (Construct.read inner)
  | constructNode : Part inner (Construct.node inner)
  | rest : Part inner Expression.rest
  | continuation : Part inner Expression.continuation
  | tail : Part inner Expression.tail
  | dropTail : Part inner Expression.dropTail
  | argument : Part inner (Expression.argument inner)
  | arguments : Part inner (Expression.arguments inner)
  | element : Part inner (Expression.element inner)
  | elements : Part inner (Expression.elements inner)
  | block : Part inner (Expression.block inner)
  | braces : Part inner (Expression.braces inner)
  | parameter : Part inner Expression.parameter
  | functionName : Part inner Expression.functionName
  | function : Part inner (Expression.function inner)
  | immediate : Part inner (Expression.immediate inner)
  | property : Part inner Expression.property
  | properties : Part inner Expression.properties
  | path : Part inner Expression.path
  | link : Part inner (Expression.link inner)
  | referenceTo (comments : List Comment) (path : Option SymbolPath) :
    Part inner (Expression.referenceTo inner comments path)
  | primitive (kind : PrimitiveKind) (t : Token) : Part inner (Expression.primitive kind t)
  | value : Part inner (Expression.value inner)
  | assignmentOrReference (first : Token) :
    Part inner (Expression.assignmentOrReference inner first)
  | expression : Part inner (Expression.read inner)
  | terminator : Part inner Statement.terminator
  | afterComma {α : Type} {item : Reader α} (h : Part inner item) :
    Part inner (Statement.afterComma item)
  | expressions : Part inner (Statement.expressions inner)
  | functionDeclaration : Part inner (Statement.functionDeclaration inner)
  | declarator (word : DeclarationWord) (leading : List Comment) :
    Part inner (Statement.declarator inner word leading)
  | declarations : Part inner (Statement.declarations inner)
  | returns : Part inner (Statement.returns inner)
  | statement : Part inner (Statement.read inner)

theorem Readers.Part.same {m : Reader α} (hm : Part inner m) (h : inner.SameAt c inner) :
    Reader.SameAt c m m := by
  induction hm with
  | optional word _ ih => exact Construct.optional_same word ih
  | afterComma _ ih => exact Statement.afterComma_same ih
  | _ => grind

/-- A reader ends with as many guarded readers at work as when it began. -/
theorem Readers.Part.depth_restored {n : Nat} {m : Reader α} (hm : Part (within n) m)
    (r : Reading) :
    Meets (fun _ r' => r'.depth = r.depth) (fun r' => r'.depth = r.depth) (m r) :=
  (hm.same (within_same n r.depth)).returns r rfl

end ScriptOutline
