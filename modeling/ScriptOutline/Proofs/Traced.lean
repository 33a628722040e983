/-
Constructs and expressions lead along a derivation.

`Traced` says of the four readers of a level that what they give comes of a derivation and
that they pass a token.  Each reader made of such readers has a lemma here; those of
statements and scripts have theirs apart.
-/
import ScriptOutline.Proofs.Derivation
import ScriptOutline.Proofs.Shape

namespace ScriptOutline

open TokenTree

namespace Token

theorem isEof_of_kind {t : Token} {kind : TokenKind} (h : t.kind = kind) (hk : kind ≠ .eof) :
    t.isEof = false := by
  simp [isEof, h, hk]

theorem isPutIn_of_kind {t : Token} {kind : TokenKind} (h : t.kind = kind)
    (hk : kind ≠ .punctuation) : t.isPutIn = false := by
  simp [isPutIn, isPunctuation, h, hk]

theorem isEof_of_isPunctuation {t : Token} {value : String} (h : t.isPunctuation value = true) :
    t.isEof = false := by
  simp only [isPunctuation, Bool.and_eq_true, beq_iff_eq] at h
  exact isEof_of_kind h.1 (by decide)

theorem isEof_of_isPropertyName {t : Token} (h : t.isPropertyName = true) : t.isEof = false := by
  cases hkind : t.kind with
  | eof => simp [isPropertyName, hkind] at h
  | _ => simp [isEof, hkind]

theorem isEof_of_mayInvoke {t : Token} (h : t.mayInvoke = true) : t.isEof = false := by
  cases hkind : t.kind with
  | eof => simp [mayInvoke, isPunctuation, hkind] at h
  | _ => simp [isEof, hkind]

theorem kind_of_isKeyword {t : Token} {value : String} (h : t.isKeyword value = true) :
    t.kind = .keyword := by
  simp only [isKeyword, Bool.and_eq_true, beq_iff_eq] at h
  exact h.1

theorem kind_of_opensConstruct {t : Token} (h : t.opensConstruct = true) : t.kind = .keyword := by
  simp only [opensConstruct, Bool.and_eq_true, beq_iff_eq] at h
  exact h.1

end Token

namespace Input

variable {i : Input} {n : Nat} {x y : Stage} {inner : Readers} {β : Type}
  {G : β → Stage → Prop}

/-- What the reader gives keeps the tokens that it passes. -/
def Captures (i : Input) (x : Stage) (m : Reader (List TokenTree)) : Prop :=
  i.Leads x m fun trees y => ∃ k, y = x.move k ∧ Kept i.met x.index trees k

/-- The reader passes some tokens and keeps them as one tree. -/
def Takes (i : Input) (x : Stage) (m : Reader TokenTree) : Prop :=
  i.Leads x m fun tree y => ∃ k, y = x.move k ∧ x.index < k ∧ Kept i.met x.index [tree] k

theorem Captures.bind {m : Reader (List TokenTree)} {f : List TokenTree → Reader β}
    (hm : i.Captures x m)
    (hf : ∀ trees k, Kept i.met x.index trees k → i.Leads (x.move k) (f trees) G) :
    i.Leads x (m >>= f) G := by
  refine Leads.bind hm ?_
  rintro trees _ ⟨k, rfl, hkept⟩
  exact hf trees k hkept

theorem Takes.bind {m : Reader TokenTree} {f : TokenTree → Reader β} (hm : i.Takes x m)
    (hf : ∀ tree k, x.index < k → Kept i.met x.index [tree] k →
      i.Leads (x.move k) (f tree) G) : i.Leads x (m >>= f) G := by
  refine Leads.bind hm ?_
  rintro tree _ ⟨k, rfl, hlt, hkept⟩
  exact hf tree k hlt hkept

theorem group_takes : i.Takes x Reader.group := by
  refine Leads.group.mono ?_
  rintro tree _ ⟨rfl, s, hgroup⟩
  refine ⟨_, rfl, ?_, kept_group hgroup⟩
  have hpos := TokenStream.tokens_ne_nil tree
  omega

theorem gather_captures {ends : Nat → Token → Bool} (heof : ∀ n t, t.isEof = true → ends n t = true)
    (hsemicolon : ∀ n t, t.isPunctuation ";" = true → ends n t = true) :
    i.Captures x (Reader.gather ends) := by
  refine (Leads.gather heof).mono ?_
  rintro trees _ ⟨rfl, s, htrees⟩
  exact ⟨_, rfl, kept_trees hsemicolon htrees⟩

/-- What the readers of a level give, nested at most `n` deep. -/
structure Traced (i : Input) (n : Nat) (inner : Readers) : Prop where
  statement : ∀ x, i.Leads x inner.statement fun ns y => x.index < y.index ∧ Reads i.met n x ns y
  expression : ∀ x, i.Leads x inner.expression fun node y =>
    x.index < y.index ∧ Reads i.met n x [node] y
  value : ∀ x, i.Leads x inner.value fun node y => x.index < y.index ∧ Reads i.met n x [node] y
  /-- A construct is read at a keyword or a label. -/
  construct : ∀ x, (i.met x.index).kind = .name ∨ (i.met x.index).kind = .keyword →
    i.Leads x inner.construct fun trees y =>
      ∃ k, y = x.move k ∧ x.index < k ∧ Kept i.met x.index (.leaf (i.met x.index) :: trees) k

end Input

/-! ## Constructs -/

namespace Construct

open Reader Input

variable {i : Input} {n : Nat} {x : Stage} {inner : Readers} {β : Type} {G : β → Stage → Prop}

theorem word_steady {t : Token} (h : t.kind = .name ∨ t.kind = .keyword) :
    t.isEof = false ∧ t.isPutIn = false := by
  rcases h with h | h
  · exact ⟨Token.isEof_of_kind h (by decide), Token.isPutIn_of_kind h (by decide)⟩
  · exact ⟨Token.isEof_of_kind h (by decide), Token.isPutIn_of_kind h (by decide)⟩

theorem leaf_takes (h : (i.met x.index).kind = .name ∨ (i.met x.index).kind = .keyword) :
    i.Takes x leaf := by
  obtain ⟨heof, hput⟩ := word_steady h
  exact .token (.advance heof (.pure ⟨_, rfl, Nat.lt_succ_self _, .leaf hput⟩))

theorem bracketed_takes (opening : String) : i.Takes x (bracketed opening) :=
  .expect fun _ => group_takes

theorem isLabel_leads {f : Bool → Reader β}
    (hf : ∀ b, (b = true → (i.met x.index).kind = .name) → i.Leads x (f b) G) :
    i.Leads x (isLabel (i.met x.index) >>= f) G := by
  rw [isLabel_eq]
  refine .looksPast (fun hname => ?_) (hf _ fun hb => ?_)
  · exact Token.isEof_of_kind (by simpa using hname) (by decide)
  · simp only [Bool.and_eq_true, beq_iff_eq] at hb
    exact hb.1

theorem semicolon_captures : i.Captures x semicolon := by
  refine .token (.ite (fun hsemicolon => ?_) fun _ => .pure ⟨_, rfl, .nil _ _⟩)
  refine .advance (Token.isEof_of_isPunctuation hsemicolon) (.pure ⟨_, rfl, ?_⟩)
  split
  · exact .putIn ‹_›
  · rename_i hinserted
    exact .leaf (by simp [Token.isPutIn, hinserted])

theorem rest_captures : i.Captures x rest := by
  refine (gather_captures (fun _ t ht => by simp [ht]) fun _ t ht => by simp [ht]).bind ?_
  intro trees k htrees
  refine semicolon_captures.bind fun last l hlast => .pure ⟨l, rfl, htrees.append hlast⟩

theorem body_captures (h : i.Traced n inner) : i.Captures x (body inner) := by
  refine .token (.ite (fun _ => ?_) fun _ => ?_)
  · exact group_takes.bind fun tree k _ hkept => .pure ⟨k, rfl, hkept⟩
  refine isLabel_leads fun labelled hlabelled => .ite (fun hopens => ?_) fun _ => rest_captures
  have hword : (i.met x.index).kind = .name ∨ (i.met x.index).kind = .keyword := by
    rw [Bool.or_eq_true] at hopens
    exact hopens.imp hlabelled Token.kind_of_opensConstruct
  refine (h.construct x hword).bind ?_
  rintro trees _ ⟨k, rfl, -, hkept⟩
  exact .pure ⟨k, rfl, hkept⟩

theorem catchClause_repeats :
    i.Repeats catchClause fun x clauses y =>
      ∃ k, y = x.move k ∧ Kept i.met x.index clauses.flatten k := by
  intro x
  refine .token (.ite (fun hcatch => ?_) fun _ => .pure ⟨rfl, _, rfl, .nil _ _⟩)
  refine (leaf_takes (.inr (Token.kind_of_isKeyword hcatch))).bind fun word j hj hword => ?_
  refine (bracketed_takes "(").bind fun parameter k hk hparameter => ?_
  refine (bracketed_takes "\x7b").bind fun block l hl hblock => .pure ⟨?_, ?_⟩
  · exact Nat.lt_trans hj (Nat.lt_trans hk hl)
  · rintro clauses _ ⟨u, rfl, hclauses⟩
    exact ⟨u, rfl, ((hword.cons hparameter).append hblock).append hclauses⟩

theorem optional_captures {word : String} {then_ : Reader (List TokenTree)}
    (h : ∀ x, i.Captures x then_) : i.Captures x (optional word then_) := by
  refine .token (.ite (fun hword => ?_) fun _ => .pure ⟨_, rfl, .nil _ _⟩)
  refine (leaf_takes (.inr (Token.kind_of_isKeyword hword))).bind fun first j _ hfirst => ?_
  exact (h _).bind fun trees k htrees => .pure ⟨k, rfl, hfirst.cons htrees⟩

theorem afterKeyword_captures (h : i.Traced n inner) (keyword : String) :
    i.Captures x (afterKeyword inner keyword) := by
  unfold afterKeyword
  split
  case h_1 =>
    refine (bracketed_takes "(").bind fun condition j _ hcondition => ?_
    refine (body_captures h).bind fun consequence k hconsequence => ?_
    refine (optional_captures fun _ => body_captures h).bind fun other l hother => ?_
    exact .pure ⟨l, rfl, (hcondition.cons hconsequence).append hother⟩
  case h_2 | h_3 | h_4 =>
    refine (bracketed_takes "(").bind fun header j _ hheader => ?_
    exact (body_captures h).bind fun trees k htrees => .pure ⟨k, rfl, hheader.cons htrees⟩
  case h_5 =>
    refine (body_captures h).bind fun repeated j hrepeated => .expect fun hwhile => ?_
    have hkind : (i.met (x.move j).index).kind = .keyword := by
      simp only [TokenPattern.accepts, Bool.and_eq_true, beq_iff_eq] at hwhile
      exact hwhile.1
    refine (leaf_takes (.inr hkind)).bind fun word k _ hword => ?_
    refine (bracketed_takes "(").bind fun condition l _ hcondition => ?_
    refine semicolon_captures.bind fun last u hlast => .pure ⟨u, rfl, ?_⟩
    exact hrepeated.append (hword.cons (hcondition.cons hlast))
  case h_6 =>
    refine (bracketed_takes "(").bind fun subject j _ hsubject => ?_
    exact (bracketed_takes "\x7b").bind fun block k _ hblock => .pure ⟨k, rfl, hsubject.cons hblock⟩
  case h_7 =>
    refine (bracketed_takes "\x7b").bind fun tried j _ htried => ?_
    refine (catchClause_repeats.many _).bind ?_
    rintro clauses _ ⟨k, rfl, hclauses⟩
    refine (optional_captures fun x => ?_).bind fun last l hlast => .pure ⟨l, rfl, ?_⟩
    · exact (bracketed_takes "\x7b").bind fun block k _ hblock => .pure ⟨k, rfl, hblock⟩
    · exact (htried.cons hclauses).append hlast
  case h_8 | h_9 =>
    refine .token ?_
    have hbehind {label : List TokenTree} {k : Nat} (hlabel : Kept i.met x.index label k) :
        i.Leads (x.move k) (do return label ++ (← semicolon)) fun trees y =>
          ∃ l, y = x.move l ∧ Kept i.met x.index trees l :=
      semicolon_captures.bind fun last l hlast => .pure ⟨l, rfl, hlabel.append hlast⟩
    refine .ite (fun hname => ?_) fun _ => hbehind (.nil _ _)
    simp only [Bool.and_eq_true, beq_iff_eq] at hname
    have hlabel : i.Captures x (do return [← leaf]) :=
      (leaf_takes (.inl hname.1)).bind fun label k _ hlabel => .pure ⟨k, rfl, hlabel⟩
    exact hlabel.bind fun label k hkept => hbehind hkept
  case h_10 => exact rest_captures

theorem read_leads (h : i.Traced n inner)
    (hword : (i.met x.index).kind = .name ∨ (i.met x.index).kind = .keyword) :
    i.Leads x (read inner) fun trees y =>
      ∃ k, y = x.move k ∧ x.index < k ∧ Kept i.met x.index (.leaf (i.met x.index) :: trees) k := by
  obtain ⟨heof, hput⟩ := word_steady hword
  refine .token (.advance heof (.ite (fun _ => ?_) fun _ => ?_))
  · refine .expect fun hcolon => ?_
    have hcolon : (i.met (x.index + 1)).isPunctuation ":" = true := hcolon
    have hother : (i.met (x.index + 1)).isPutIn = false := by
      simp only [Token.isPunctuation, Bool.and_eq_true, beq_iff_eq] at hcolon
      simp [Token.isPutIn, Token.isPunctuation, hcolon.2]
    refine .advance (Token.isEof_of_isPunctuation hcolon) ?_
    refine (body_captures h).bind fun trees k htrees => .pure ⟨k, rfl, ?_, ?_⟩
    · have hle : x.index + 1 + 1 ≤ k := htrees.le
      omega
    · exact (Kept.leaf hput).cons ((Kept.leaf hother).cons htrees)
  · refine Leads.mono (afterKeyword_captures h _) ?_
    rintro trees _ ⟨k, rfl, hkept⟩
    exact ⟨k, rfl, hkept.le, (Kept.leaf hput).cons hkept⟩

theorem node_leads (h : i.Traced n inner)
    (hword : (i.met x.index).kind = .name ∨ (i.met x.index).kind = .keyword) :
    i.Leads x (node inner) fun node y => x.index < y.index ∧ Reads i.met (n + 1) x [node] y := by
  refine .token ((read_leads h hword).bind ?_)
  rintro trees _ ⟨k, rfl, hlt, hkept⟩
  exact .warn (.pure ⟨hlt, .skipped hlt hkept⟩)

end Construct

/-! ## Expressions -/

namespace Expression

open Reader Input

variable {i : Input} {n : Nat} {x y z : Stage} {inner : Readers}

theorem endsRest_of_isEof (n : Nat) (t : Token) (h : t.isEof = true) : endsRest n t = true := by
  simp [endsRest, h]

theorem endsRest_of_semicolon (n : Nat) (t : Token) (h : t.isPunctuation ";" = true) :
    endsRest n t = true := by
  simp [endsRest, h]

theorem rest_captures : i.Captures x rest := gather_captures endsRest_of_isEof endsRest_of_semicolon

theorem continuation_captures : i.Captures x continuation :=
  .token (.ite (fun _ => .pure ⟨_, rfl, .nil _ _⟩) fun _ => rest_captures)

theorem tail_leads : i.Leads x tail (TailRead i.met x) := by
  refine .token (.ite (fun _ => .pure .none) fun hends => ?_)
  rw [Bool.not_eq_true] at hends
  refine (Leads.gather endsRest_of_isEof).bind ?_
  rintro trees _ ⟨rfl, s, htrees⟩
  have hcontinues : endsRest 0 (i.met x.index) = false := endsRest_of_endsExpression hends 0
  refine .warn (.pure (.some ?_ (kept_trees endsRest_of_semicolon htrees) ?_))
  · -- the first token does not end the tail, so there is a tree
    match trees, htrees.ended with
    | [], hended =>
      have hended : endsRest 0 (i.met x.index) = true := hended
      rw [hcontinues] at hended
      cases hended
    | tree :: trees, _ =>
      have hpos := TokenStream.tokens_ne_nil tree
      rw [tokensOf, List.length_append]
      omega
  · exact ⟨hends, eq_stretch_of_spans htrees.spans, htrees.unended, htrees.ended⟩

theorem dropTail_leads : i.Leads x dropTail fun _ y => ∃ tail, TailRead i.met x tail y :=
  tail_leads.bind fun tail _ htail => .pure ⟨tail, htail⟩

/-- Behind an item stands a comma, which is passed, or the bracket that ends the list. -/
theorem separated_leads {α : Type} (a : α) (closing : String) :
    i.Leads x
      (if (i.met x.index).isPunctuation "," = true then do
        let _ ← advance
        return some a
      else do
        let _ ← expectPunctuation closing
        return some a)
      fun o y => o = some a ∧ ∃ k, x.index ≤ k ∧ y = x.move k := by
  refine .ite (fun hcomma => ?_) fun _ => ?_
  · exact .advance (Token.isEof_of_isPunctuation hcomma) (.pure ⟨rfl, _, Nat.le_succ _, rfl⟩)
  · exact .expect fun _ => .pure ⟨rfl, x.index, Nat.le_refl _, rfl⟩

/-- An expression with what separates it from the next. -/
theorem listed_leads (h : i.Traced n inner) (closing : String) :
    i.Leads x
      (do
        let node ← inner.expression
        if (← token).isPunctuation "," then
          let _ ← advance
        else
          let _ ← expectPunctuation closing
        return some node)
      fun o y => ∃ node, o = some node ∧ x.index < y.index ∧ Reads i.met n x [node] y := by
  refine (h.expression x).bind fun node y hnode => .token ?_
  refine (separated_leads node closing).mono ?_
  rintro _ _ ⟨rfl, k, hk, rfl⟩
  exact ⟨node, rfl, Nat.lt_of_lt_of_le hnode.1 hk, hnode.2.behind hk⟩

theorem argument_repeats (h : i.Traced n inner) :
    i.Repeats (argument inner) fun x nodes y =>
      Reads i.met n x nodes y ∧ (i.met y.index).isPunctuation ")" = true := by
  intro x
  refine .token (.ite (fun hclose => .pure ⟨rfl, .nil, hclose⟩) fun _ => ?_)
  refine (listed_leads h ")").mono ?_
  rintro _ y ⟨node, rfl, hlt, hnode⟩
  exact ⟨hlt, fun nodes z hnodes => ⟨hnode.cons hnodes.1, hnodes.2⟩⟩

theorem arguments_leads (h : i.Traced n inner) :
    i.Leads x (arguments inner) fun nodes y => x.index < y.index ∧ Reads i.met n x nodes y := by
  refine .pass fun _ => ((argument_repeats h).many _).bind fun nodes y hnodes => ?_
  exact .advance (Token.isEof_of_isPunctuation hnodes.2) (.pure hnodes.1.enclosed)

theorem element_repeats (h : i.Traced n inner) :
    i.Repeats (element inner) fun x nodes y =>
      Reads i.met (n + 1) x nodes y ∧ (i.met y.index).isPunctuation "]" = true := by
  intro x
  refine .token (.ite (fun hclose => .pure ⟨rfl, .nil, hclose⟩) fun _ => .ite (fun hcomma => ?_)
    fun _ => ?_)
  · refine .advance (Token.isEof_of_isPunctuation hcomma) (.pure ⟨Nat.lt_succ_self _, ?_⟩)
    intro nodes z hnodes
    have hhole : Reads i.met (n + 1) x [.expression [] []] x := .expression (.nil _ _)
    exact ⟨(hhole.behind (Nat.le_succ _)).cons hnodes.1, hnodes.2⟩
  · refine (listed_leads h "]").mono ?_
    rintro _ y ⟨node, rfl, hlt, hnode⟩
    exact ⟨hlt, fun nodes z hnodes => ⟨(hnode.deeper (Nat.le_succ n)).cons hnodes.1, hnodes.2⟩⟩

/-- The stage is that of an opening bracket. -/
theorem elements_leads (h : i.Traced n inner) (heof : (i.met x.index).isEof = false) :
    i.Leads x (elements inner) fun nodes y =>
      x.index < y.index ∧ Reads i.met (n + 1) x nodes y := by
  refine .advance heof (((element_repeats h).many _).bind fun nodes y hnodes => ?_)
  exact .advance (Token.isEof_of_isPunctuation hnodes.2) (.pure hnodes.1.enclosed)

def statementRound (inner : Readers) : Reader (Option (List Node)) := do
  let t ← token
  if t.isEof || t.isPunctuation "\x7d" then return none
  else return some (← inner.statement)

theorem statementRound_repeats (h : i.Traced n inner) :
    i.Repeats (statementRound inner) fun x nss y => Reads i.met n x nss.flatten y := by
  intro x
  refine .token (.ite (fun _ => .pure ⟨rfl, .nil⟩) fun _ => ?_)
  refine (h.statement x).bind fun ns y hns => .pure ⟨hns.1, fun nss z hnss => ?_⟩
  exact .append hns.2 hnss

theorem block_leads (h : i.Traced n inner) : i.Leads x (block inner) (Reads i.met n x) :=
  ((statementRound_repeats h).many x).bind fun _ _ hnss => .pure hnss

theorem braces_leads (h : i.Traced n inner) :
    i.Leads x (braces inner) fun body y => x.index < y.index ∧ Reads i.met n x body y := by
  exact .pass fun _ => (block_leads h).bind fun body y hbody =>
    .pass fun _ => .pure hbody.enclosed

theorem parameter_repeats :
    i.Repeats parameter fun x _ y =>
      x.index ≤ y.index ∧ y = x.move y.index ∧ (i.met y.index).isPunctuation ")" = true := by
  intro x
  refine .token (.ite (fun hclose => .pure ⟨rfl, Nat.le_refl _, rfl, hclose⟩) fun _ => ?_)
  refine .expect fun hname => ?_
  have hkind : (i.met x.index).kind = .name := by simpa [TokenPattern.accepts] using hname
  refine .advance (Token.isEof_of_kind hkind (by decide)) ?_
  refine (separated_leads (i.met x.index) ")").mono ?_
  rintro _ _ ⟨rfl, k, hk, rfl⟩
  refine ⟨hk, ?_⟩
  rintro _ z ⟨hle, hz, hclose⟩
  exact ⟨Nat.le_trans (Nat.le_of_succ_le hk) hle, hz, hclose⟩

theorem functionName_leads (heof : (i.met x.index).isEof = false) :
    i.Leads x functionName fun name y => ∀ parameters, HeadRead x { name, parameters } y := by
  refine .advance heof (.ite (fun hname => ?_) fun _ => ?_)
  · refine .advance (Token.isEof_of_kind (by simpa using hname) (by decide)) (.pure fun _ => ?_)
    refine .named ?_
    show x.index < x.index + 1 + 1
    omega
  · intro r hr
    refine ⟨x.counted.next, ⟨hr.arrived, ?_, hr.warnings⟩, fun parameters => ?_⟩
    · exact congrArg (· + 1) hr.anonymous
    · show HeadRead x { name := .anonymous (r.anonymous + 1), parameters } _
      rw [hr.anonymous]
      exact .anonymous (Nat.lt_succ_self _)

/-- The head of a function reaches beyond the second token, which is its name if it has one. -/
theorem function_leads (h : i.Traced n inner) :
    i.Leads x (function inner) fun made y =>
      ∃ z, HeadRead x made.1 z ∧ x.index + 2 < z.index ∧ Reads i.met n z made.2 y ∧
        x.index < y.index := by
  refine .expect fun hkeyword => ?_
  have hkind : (i.met x.index).kind = .keyword := by
    simp only [TokenPattern.accepts, Bool.and_eq_true, beq_iff_eq] at hkeyword
    exact hkeyword.1
  refine (functionName_leads (Token.isEof_of_kind hkind (by decide))).bind fun name u hname => ?_
  refine .pass fun _ => (parameter_repeats.many _).bind ?_
  rintro parameters v ⟨hle, hv, hclose⟩
  refine .advance (Token.isEof_of_isPunctuation hclose) ?_
  have hlt (parameters : List Token) := (hname parameters).index_lt
  have hle : u.index + 1 ≤ v.index := hle
  refine (braces_leads h).bind fun body y hbody => .pure ⟨v.next, ?_, ?_, hbody.2, ?_⟩
  · rw [hv]
    exact (hname parameters).behind (by simp; omega)
  · have hlt := hlt parameters
    show x.index + 2 < v.index + 1
    omega
  · have hlt := hlt parameters
    have hbehind : v.index + 1 < y.index := hbody.1
    omega

theorem closedBehind_leads {β : Type} {f : Bool → Reader β} {lead : Token} {G : β → Stage → Prop}
    (hf : ∀ b, (b = true → (i.met x.index).isPunctuation ")" = true) → i.Leads x (f b) G) :
    i.Leads x (closedBehind lead >>= f) G := by
  have hclosed : i.Leads x (closedBehind lead) fun b y =>
      y = x ∧ (b = true → (i.met x.index).isPunctuation ")" = true) :=
    .ite (fun _ => .token (.pure ⟨rfl, id⟩)) fun _ => .pure ⟨rfl, fun hb => nomatch hb⟩
  refine hclosed.bind ?_
  rintro b _ ⟨rfl, hb⟩
  exact hf b hb

/-- A function was read up to the stage `y`. -/
theorem calledOrNot_leads (h : i.Traced n inner) {comments : List Comment} {head : FunctionHead}
    {body : List Node} {opened : Bool} (hhead : HeadRead x head z) (hbody : Reads i.met n z body y) :
    i.Leads y (calledOrNot inner comments head body opened) fun node u =>
      y.index ≤ u.index ∧ Reads i.met (n + 1) x [node] u := by
  refine .token (.ite (fun _ => ?_) fun _ => ?_)
  · refine (arguments_leads h).bind fun arguments v harguments => ?_
    have hnode {k : Nat} (hk : v.index ≤ k) : Reads i.met (n + 1) x
        [.immediate comments head body arguments] (v.move k) :=
      (Reads.immediate hhead hbody harguments.2).behind hk
    refine .ite (fun _ => .pass fun _ => ?_) fun _ => ?_
    · refine dropTail_leads.bind ?_
      rintro _ u ⟨tail, htail⟩
      have hle : v.index + 1 ≤ u.index := htail.index_le
      have hlt := harguments.1
      exact .pure ⟨by omega, .dropping (hnode (Nat.le_succ _)) htail⟩
    · refine dropTail_leads.bind ?_
      rintro _ u ⟨tail, htail⟩
      have hle := htail.index_le
      have hlt := harguments.1
      exact .pure ⟨by omega, .dropping (hnode (Nat.le_refl _)) htail⟩
  · have hnode : Reads i.met (n + 1) x [.function comments head body] y := .function hhead hbody
    refine dropTail_leads.bind ?_
    rintro _ u ⟨tail, htail⟩
    have hle := htail.index_le
    refine .ite (fun _ => .pass fun _ => ?_) fun _ => .pure ⟨hle, .dropping hnode htail⟩
    refine dropTail_leads.bind ?_
    rintro _ v ⟨tail', htail'⟩
    have hle' : u.index + 1 ≤ v.index := htail'.index_le
    refine .pure ⟨by omega, ?_⟩
    exact .dropping ((Reads.dropping hnode htail).behind (Nat.le_succ _)) htail'

theorem immediate_leads (h : i.Traced n inner) (heof : (i.met x.index).isEof = false) :
    i.Leads x (immediate inner) fun node y =>
      x.index < y.index ∧ Reads i.met (n + 1) x [node] y := by
  rw [immediate_eq]
  refine .token (.advance heof ((function_leads h).bind ?_))
  rintro ⟨head, body⟩ y ⟨z, hhead, -, hbody, hlt⟩
  have hlt : x.index + 1 < y.index := hlt
  refine closedBehind_leads fun closed hclosed => .ite (fun hc => ?_) fun _ => ?_
  · refine .advance (Token.isEof_of_isPunctuation (hclosed hc)) ?_
    refine (calledOrNot_leads h hhead (hbody.behind (Nat.le_succ _))).mono fun node u hu => ?_
    have hle : y.index + 1 ≤ u.index := hu.1
    exact ⟨by omega, .before (Nat.le_succ _) hu.2⟩
  · refine (calledOrNot_leads h hhead hbody).mono fun node u hu => ?_
    have hle := hu.1
    exact ⟨by omega, .before (Nat.le_succ _) hu.2⟩

/-- A key that has to be computed stands in a bracket where the property begins. -/
theorem property_leads :
    i.Leads x property fun o y => match o with
      | none => y = x
      | some p => (∃ k, x.index < k ∧ y = x.move k) ∧
          ∀ opener, p = .computed opener →
            opener = i.met x.index ∧ (i.met x.index).isPunctuation "[" = true := by
  refine .token (.ite (fun hpoint => ?_) fun _ => .ite (fun hbracket => ?_) fun _ => .pure rfl)
  · refine .advance (Token.isEof_of_isPunctuation hpoint) (.ite (fun hname => ?_) fun _ => .throw)
    refine .advance (Token.isEof_of_isPropertyName hname) (.pure ⟨⟨_, ?_, rfl⟩, ?_⟩)
    · show x.index < x.index + 1 + 1
      omega
    · exact fun opener h => nomatch h
  · refine group_takes.bind fun tree k hlt _ => ?_
    cases stringKey? tree with
    | some key => exact .pure ⟨⟨k, hlt, rfl⟩, fun opener h => nomatch h⟩
    | none =>
      refine .pure ⟨⟨k, hlt, rfl⟩, fun opener h => ?_⟩
      cases h
      exact ⟨rfl, hbracket⟩

def propertyRound (known : Bool) : Reader (Option (Property × Bool)) := do
  if known then
    match ← property with
    | some (.name t) => return some (.name t, true)
    | some (.computed t) => return some (.computed t, false)
    | none => return none
  else return none

/-- The stage `y` lies behind the properties, and the bracket of a computed key before it. -/
def PropertiesRead (i : Input) (x : Stage) (ps : List Property) (y : Stage) : Prop :=
  x.index ≤ y.index ∧ y = x.move y.index ∧
    ∀ opener, .computed opener ∈ ps → ∃ j, x.index ≤ j ∧ j < y.index ∧ opener = i.met j ∧
      (i.met j).isPunctuation "[" = true

theorem PropertiesRead.cons {p : Property} {ps : List Property} {k : Nat} (hlt : x.index < k)
    (hp : ∀ opener, p = .computed opener →
      opener = i.met x.index ∧ (i.met x.index).isPunctuation "[" = true)
    (h : PropertiesRead i (x.move k) ps z) : PropertiesRead i x (p :: ps) z := by
  obtain ⟨hle, hz, hps⟩ := h
  have hle : k ≤ z.index := hle
  refine ⟨by omega, hz, fun opener hopener => ?_⟩
  rcases List.mem_cons.1 hopener with hfirst | hrest
  · exact ⟨x.index, Nat.le_refl _, by omega, hp opener hfirst.symm⟩
  · obtain ⟨j, hj, hjz, hopener⟩ := hps opener hrest
    have hj : k ≤ j := hj
    exact ⟨j, by omega, hjz, hopener⟩

theorem propertyRound_rounds :
    i.Rounds propertyRound fun x _ ps y => PropertiesRead i x ps y := by
  intro x known
  have hnone : PropertiesRead i x [] x := ⟨Nat.le_refl _, rfl, fun _ h => nomatch h⟩
  refine .ite (fun _ => property_leads.bind fun o y ho => ?_) fun _ => .pure ⟨rfl, hnone⟩
  match o, ho with
  | none, ho =>
    subst ho
    exact .pure ⟨rfl, hnone⟩
  | some (.name t), ⟨⟨k, hlt, hy⟩, hp⟩ =>
    subst hy
    exact .pure ⟨hlt, fun ps z hps => hps.cons hlt hp⟩
  | some (.computed t), ⟨⟨k, hlt, hy⟩, hp⟩ =>
    subst hy
    exact .pure ⟨hlt, fun ps z hps => hps.cons hlt hp⟩

theorem properties_leads : i.Leads x properties (PropertiesRead i x) :=
  propertyRound_rounds.collect x true

theorem computed_of_pathOf {root opener : Token} {ps : List Property}
    (h : pathOf root ps = .error opener) : .computed opener ∈ ps := by
  induction ps with
  | nil => cases h
  | cons p ps ih =>
    cases p with
    | computed t =>
      cases h
      exact List.mem_cons_self
    | name t =>
      rw [pathOf_name] at h
      cases hpath : pathOf root ps with
      | ok path =>
        rw [hpath] at h
        cases h
      | error u =>
        rw [hpath] at h
        cases h
        exact List.mem_cons_of_mem _ (ih hpath)

theorem path_leads (heof : (i.met x.index).isEof = false) :
    i.Leads x path (PathRead i.met x) := by
  refine .token (.advance heof (properties_leads.bind ?_))
  rintro ps y ⟨hle, hy, hps⟩
  have hle : x.index + 1 ≤ y.index := hle
  cases hpath : pathOf (i.met x.index) ps with
  | ok path =>
    refine .pure ?_
    rw [hy]
    exact .known hle (pathOf_eq_ok hpath).1
  | error opener =>
    obtain ⟨j, hj, hjy, rfl, hbracket⟩ := hps opener (computed_of_pathOf hpath)
    refine .warn (.pure ?_)
    rw [hy]
    exact .computed hj hbracket hjy

theorem linkFrom_leads (h : i.Traced n inner) (heof : (i.met x.index).isEof = false)
    (comments : List Comment) :
    i.Leads x (linkFrom inner comments) fun o y =>
      ∃ node, o = some node ∧ x.index < y.index ∧ Reads i.met (n + 1) x [node] y := by
  refine (path_leads heof).bind fun path y hpath => .token (.ite (fun _ => ?_) fun _ => ?_)
  · refine (arguments_leads h).bind fun arguments z harguments => ?_
    have hlt := Nat.lt_trans hpath.index_lt harguments.1
    cases path with
    | some callee => exact .pure ⟨_, rfl, hlt, .call hpath harguments.2⟩
    | none => exact .pure ⟨_, rfl, hlt, .invocation hpath harguments.2 .nil .none⟩
  · exact .pure ⟨_, rfl, hpath.index_lt, .reference hpath .none⟩

theorem link_repeats (h : i.Traced n inner) :
    i.Repeats (link inner) fun x nodes y => Reads i.met (n + 1) x nodes y := by
  intro x
  rw [link_eq]
  refine .token (.ite (fun hpoint => ?_) fun _ => .pure ⟨rfl, .nil⟩)
  refine .advance (Token.isEof_of_isPunctuation hpoint) (.ite (fun hname => ?_) fun _ => .throw)
  refine (linkFrom_leads h (Token.isEof_of_isPropertyName hname) _).mono ?_
  rintro _ y ⟨node, rfl, hnode⟩
  obtain ⟨hlt, hnode⟩ := Reads.from_next hnode
  exact ⟨hlt, fun nodes z hnodes => hnode.cons hnodes⟩

/-- A path was read from the stage `x`. -/
theorem referenceTo_leads (h : i.Traced n inner) {comments : List Comment}
    {path : Option SymbolPath} (hpath : PathRead i.met x path y) :
    i.Leads y (referenceTo inner comments path) fun node z =>
      x.index < z.index ∧ Reads i.met (n + 2) x [node] z := by
  have hroot := hpath.index_lt
  refine .token (.ite (fun _ => ?_) fun _ => ?_)
  · refine (arguments_leads h).bind fun arguments z harguments => ?_
    refine ((link_repeats h).many z).bind fun chain u hchain => ?_
    refine tail_leads.bind fun tail v htail => .pure ⟨?_, ?_⟩
    · have hlt := harguments.1
      have hlinks := hchain.index_le
      have hle := htail.index_le
      omega
    · exact .invocation hpath (harguments.2.deeper (Nat.le_succ n)) hchain htail
  · refine tail_leads.bind fun tail z htail => .pure ⟨?_, .reference hpath htail⟩
    have hle := htail.index_le
    omega

theorem primitive_leads {kind : PrimitiveKind} (hkind : primitiveKind? (i.met x.index) = some kind) :
    i.Leads x (primitive kind (i.met x.index)) fun node y =>
      x.index < y.index ∧ Reads i.met (n + 1) x [node] y := by
  obtain ⟨hpunctuation, -, heof⟩ := kind_of_primitiveKind? hkind
  have hput := Token.isPutIn_of_kind rfl hpunctuation
  refine .advance (Token.isEof_of_kind rfl heof) (.ite (fun _ => ?_) fun _ => ?_)
  · exact .pure ⟨Nat.lt_succ_self _, Reads.behind .primitive (Nat.le_succ _)⟩
  · refine rest_captures.bind fun trees k htrees => .pure ⟨?_, ?_⟩
    · exact htrees.le
    · exact .expression ((Kept.leaf hput).cons htrees)

theorem value_leads (h : i.Traced n inner) :
    i.Leads x (value inner) fun node y =>
      x.index < y.index ∧ Reads i.met (n + 2) x [node] y := by
  refine .token ?_
  cases hkind : primitiveKind? (i.met x.index) with
  | some kind => exact primitive_leads hkind
  | none =>
  refine .ite (fun _ => ?_) fun _ => .ite (fun _ => ?_) fun _ => .ite (fun hsquare => ?_) fun _ => ?_
  · refine (function_leads h).bind ?_
    rintro ⟨head, body⟩ y ⟨z, hhead, -, hbody, hlt⟩
    refine dropTail_leads.bind ?_
    rintro _ u ⟨tail, htail⟩
    refine .pure ⟨Nat.lt_of_lt_of_le hlt htail.index_le, ?_⟩
    exact .deeper (.dropping (.function hhead hbody) htail) (Nat.le_succ _)
  · refine group_takes.bind fun head k hlt hhead => ?_
    refine continuation_captures.bind fun trees l htrees => .pure ⟨?_, ?_⟩
    · exact Nat.lt_of_lt_of_le hlt htrees.le
    · exact .expression (hhead.cons htrees)
  · refine (elements_leads h (Token.isEof_of_isPunctuation hsquare)).bind fun nodes y hnodes => ?_
    refine dropTail_leads.bind ?_
    rintro _ u ⟨tail, htail⟩
    exact .pure ⟨Nat.lt_of_lt_of_le hnodes.1 htail.index_le, .dropping (.array hnodes.2) htail⟩
  refine .ite (fun _ => ?_) fun _ => .ite (fun hname => ?_) fun _ => .ite (fun hnew => ?_)
    fun _ => .ite (fun _ => .throw) fun _ => .throw
  · refine group_takes.bind fun head k hlt hhead => ?_
    refine continuation_captures.bind fun trees l htrees => .pure ⟨?_, ?_⟩
    · exact Nat.lt_of_lt_of_le hlt htrees.le
    · cases trees with
      | nil => exact .object (hhead.append htrees)
      | cons tree trees => exact .expression (hhead.cons htrees)
  · have hname : (i.met x.index).kind = .name := by simpa using hname
    refine (path_leads (Token.isEof_of_kind hname (by decide))).bind fun path y hpath => ?_
    exact referenceTo_leads h hpath
  · have hoperator : (i.met x.index).kind = .operator := by
      simp only [Token.isOperator, Bool.and_eq_true, beq_iff_eq] at hnew
      exact hnew.1
    refine .advance (Token.isEof_of_kind hoperator (by decide)) ?_
    refine (h.expression _).bind fun node y hnode => .pure (Reads.from_next ⟨hnode.1, ?_⟩)
    exact (Reads.instantiation hnode.2).deeper (Nat.le_succ _)

theorem assignmentOrReference_leads (h : i.Traced n inner) (hname : (i.met x.index).kind = .name) :
    i.Leads x (assignmentOrReference inner (i.met x.index)) fun node y =>
      x.index < y.index ∧ Reads i.met (n + 2) x [node] y := by
  refine (path_leads (Token.isEof_of_kind hname (by decide))).bind fun path y hpath => .token ?_
  cases path with
  | none => exact referenceTo_leads h hpath
  | some target =>
    refine .ite (fun hassigns => ?_) fun _ => referenceTo_leads h hpath
    have hoperator : (i.met y.index).kind = .operator := by
      simp only [Token.isAssignment, Bool.and_eq_true, beq_iff_eq] at hassigns
      exact hassigns.1
    refine .advance (Token.isEof_of_kind hoperator (by decide)) ?_
    refine (h.expression _).bind fun node z hnode => .pure ?_
    have hroot := hpath.index_lt
    have hlt : y.index + 1 < z.index := hnode.1
    cases hpath with
    | known lt root =>
      refine ⟨by omega, .deeper (.assignment root hname ?_) (Nat.le_succ _)⟩
      exact .before (Nat.succ_le_succ (Nat.le_of_lt lt)) hnode.2

theorem read_leads (h : i.Traced n inner) :
    i.Leads x (read inner) fun node y =>
      x.index < y.index ∧ Reads i.met (n + 2) x [node] y := by
  rw [read_eq]
  have hoperator (hleads : (i.met x.index).isLeadingOperator = true) :
      (i.met x.index).kind = .operator := by
    simp only [Token.isLeadingOperator, Bool.and_eq_true, beq_iff_eq] at hleads
    exact hleads.1
  refine .token (.looksPast (fun hinvokes => Token.isEof_of_mayInvoke hinvokes) ?_)
  refine .ite (fun hinvoked => ?_) fun _ => .ite (fun hname => ?_) fun _ => ?_
  · rw [Bool.and_eq_true] at hinvoked
    refine (immediate_leads h (Token.isEof_of_mayInvoke hinvoked.1)).mono fun node y hnode => ?_
    exact ⟨hnode.1, hnode.2.deeper (Nat.le_succ _)⟩
  · exact assignmentOrReference_leads h (by simpa using hname)
  refine .ite (fun hleads => ?_) fun _ => ?_
  · have hkind := hoperator hleads
    refine .advance (Token.isEof_of_kind hkind (by decide)) ?_
    refine rest_captures.bind fun trees k htrees => .pure ⟨htrees.le, ?_⟩
    exact .expression ((Kept.leaf (Token.isPutIn_of_kind hkind (by decide))).cons htrees)
  · exact (h.value x).mono fun node y hnode => ⟨hnode.1, hnode.2.deeper (by omega)⟩

end Expression

end ScriptOutline
