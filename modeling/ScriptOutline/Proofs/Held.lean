/-
Every token that a script holds was supplied by the stream it was read from.

`Supplies P Q` says that a stream of which `P` holds shows no tokens but those of which `Q` holds,
and that reading on keeps `P`.  What is read then holds no other tokens either, wherever they stand
in it: as a name, on a path, as a literal or in a tree.

`Holding` is the triple this is proved with, for a property of results beside one that every
state has.
-/
import ScriptOutline.Proofs.Fitting

namespace ScriptOutline

section Triples

variable {ε σ α β : Type} {P : σ → Prop} {x : EStateM ε σ α} {f : α → EStateM ε σ β}
  {R R' : α → Prop} {G : β → Prop}

/-- From a state of which `P` holds, `x` gives only results of which `R` holds, in such a state. -/
def Holding (P : σ → Prop) (x : EStateM ε σ α) (R : α → Prop) : Prop :=
  Runs P x (fun a s => R a ∧ P s) fun _ => True

namespace Holding

theorem pure {a : α} (h : R a) : Holding P (pure a : EStateM ε σ α) R :=
  Runs.pure fun _ hs => ⟨h, hs⟩

theorem throw {e : ε} : Holding P (throw e : EStateM ε σ α) R := Runs.throw fun _ _ => trivial

theorem bind (hx : Holding P x R) (hf : ∀ a, R a → Holding P (f a) G) : Holding P (x >>= f) G :=
  Runs.bind hx fun a => Runs.assume fun ha => hf a ha

/-- A step of whose result nothing needs to be known. -/
theorem skip (hx : Holding P x R) (hf : ∀ a, Holding P (f a) G) : Holding P (x >>= f) G :=
  hx.bind fun a _ => hf a

theorem ite {c : Prop} [Decidable c] {y : EStateM ε σ α} (ht : Holding P x R)
    (hf : Holding P y R) : Holding P (if c then x else y) R :=
  Runs.ite (fun _ => ht) fun _ => hf

theorem conseq (h : Holding P x R) (hR : ∀ a, R a → R' a) : Holding P x R' :=
  Runs.conseq h (fun _ hs => hs) (fun a _ hr => ⟨hR a hr.1, hr.2⟩) fun _ _ => trivial

theorem keeps (h : Runs P x (fun _ => P) P) : Holding P x fun _ => True :=
  Runs.conseq h (fun _ hs => hs) (fun _ _ hs => ⟨trivial, hs⟩) fun _ _ => trivial

theorem of_ok (h : ∀ s a s', P s → x s = .ok a s' → R a ∧ P s') : Holding P x R := by
  intro s hs
  cases hx : x s with
  | ok a s' => exact h s a s' hs hx
  | error e s' => exact trivial

theorem ok (h : Holding P x R) {s s' : σ} {a : α} (hs : P s) (hx : x s = .ok a s') :
    R a ∧ P s' := by
  have hrun := h s hs
  rw [hx] at hrun
  exact hrun

theorem collect {size : σ → Nat} {step : β → EStateM ε σ (Option (α × β))}
    (h : ∀ b, Holding P (step b) fun o => ∀ u ∈ o, R u.1) (b : β) :
    Holding P (Repeat.collect size step b) fun as => ∀ a ∈ as, R a := by
  apply of_ok
  intro s as s' hs hrun
  have hcollected := Repeat.collected_of_collect hrun
  clear hrun
  induction hcollected with
  | done last => exact ⟨by simp, ((h _).ok hs last).2⟩
  | more first _ _ ih =>
    obtain ⟨hfirst, hs₁⟩ := (h _).ok hs first
    obtain ⟨hrest, hs'⟩ := ih hs₁
    exact ⟨List.forall_mem_cons.mpr ⟨hfirst _ rfl, hrest⟩, hs'⟩
  | stuck first _ =>
    obtain ⟨hfirst, hs'⟩ := (h _).ok hs first
    exact ⟨List.forall_mem_singleton.mpr (hfirst _ rfl), hs'⟩

theorem many {size : σ → Nat} {step : EStateM ε σ (Option α)}
    (h : Holding P step fun o => ∀ a ∈ o, R a) :
    Holding P (Repeat.many size step) fun as => ∀ a ∈ as, R a := by
  refine collect (fun _ => h.bind fun o ho => pure ?_) ()
  intro u hu
  obtain ⟨a, ha, rfl⟩ := Option.map_eq_some_iff.mp hu
  exact ho a ha

end Holding

end Triples

namespace TokenStream

/-- The stream shows no tokens but those of which `Q` holds as long as `P` holds of it, which
reading on keeps. -/
structure Supplies (P : TokenStream → Prop) (Q : Token → Prop) : Prop where
  upheld : Upheld P
  current : ∀ {s t}, P s → Shows t s → Q t
  peeked : ∀ {s t}, P s → s.peeked.map (·.token) = some t → Q t

variable {P : TokenStream → Prop} {Q : Token → Prop}

namespace Supplies

variable (src : Supplies P Q)
include src

theorem token : Holding P token Q := by
  apply Holding.of_ok
  intro s t s' hs hrun
  have hs' : P s' := ((Holding.keeps src.upheld.token).ok hs hrun).2
  exact ⟨src.current hs' (token_shows hrun), hs'⟩

theorem advance : Holding P TokenStream.advance Q := by
  apply Holding.of_ok
  intro s t s' hs hrun
  have hs' : P s' := ((Holding.keeps src.upheld.advanceToken).ok hs hrun).2
  exact ⟨src.current hs' (advance_shows hrun), hs'⟩

theorem peek : Holding P TokenStream.peek Q := by
  apply Holding.of_ok
  intro s t s' hs hrun
  obtain ⟨d, s₁, hpeek, hd⟩ := bind_eq_ok.mp hrun
  cases hd
  have hs' : P s' := ((Holding.keeps src.upheld.peek).ok hs hpeek).2
  rw [Pairing.peekSeen_eq] at hpeek
  obtain ⟨c, s₂, hc, hpeek⟩ := bind_eq_ok.mp hpeek
  have hpeeked : s'.peeked = some d := by
    rcases Pairing.peekSeen_of_ok (Pairing.current_of_currentSeen hc) hpeek with
      ⟨hpeeked, rfl⟩ | ⟨-, s₃, -, rfl⟩
    · exact hpeeked
    · rfl
  exact ⟨src.peeked hs' (by rw [hpeeked, Option.map_some]), hs'⟩

theorem expect (p : TokenPattern) : Holding P (TokenStream.expect p) Q :=
  src.token.bind fun _ ht => .ite (.pure ht) .throw

/-- Trees hold what is supplied where the groups in them do. -/
theorem gather {group : Streaming TokenTree}
    (hgroup : Holding P group fun tree => ∀ t ∈ tree.tokens, Q t) (ends : Nat → Token → Bool) :
    Holding P (gather group ends) fun trees => ∀ t ∈ TokenTree.tokensOf trees, Q t := by
  have hstep (n : Nat) : Holding P (gatherStep group ends n)
      fun o => ∀ u ∈ o, ∀ t ∈ u.1.tokens, Q t := by
    refine src.token.bind fun t ht => .ite (.pure (by simp)) (.ite ?_ ?_)
    · exact hgroup.bind fun tree htree => .pure (by simpa using htree)
    · exact src.advance.skip fun _ => .pure (by simpa [TokenTree.tokens] using ht)
  refine (Holding.collect (R := fun tree => ∀ t ∈ tree.tokens, Q t) hstep 0).conseq ?_
  intro trees htrees
  induction trees with
  | nil => exact List.forall_mem_nil _
  | cons tree trees ih =>
    obtain ⟨htree, hrest⟩ := List.forall_mem_cons.mp htrees
    exact List.forall_mem_append.mpr ⟨htree, ih hrest⟩

theorem treesUntil {group : Streaming TokenTree}
    (hgroup : Holding P group fun tree => ∀ t ∈ tree.tokens, Q t) (p : TokenPattern) :
    Holding P (treesUntil group p) fun trees => ∀ t ∈ TokenTree.tokensOf trees, Q t :=
  src.advance.skip fun _ => (src.gather hgroup _).bind fun _ htrees =>
    src.token.skip fun _ => .ite (.pure htrees) .throw

theorem groupWithin (depth : Nat) :
    Holding P (groupWithin depth) fun tree => ∀ t ∈ tree.tokens, Q t := by
  induction depth with
  | zero => exact (src.expect .opening).skip fun _ => .throw
  | succ depth ih =>
    refine (src.expect .opening).bind fun opener hopener => ?_
    refine (src.treesUntil ih _).bind fun trees htrees => ?_
    refine src.token.bind fun closer hcloser => src.advance.skip fun _ => .pure ?_
    rw [TokenTree.tokens, List.forall_mem_cons, List.forall_mem_append, List.forall_mem_singleton]
    exact ⟨hopener, htrees, hcloser⟩

end Supplies

end TokenStream

def SymbolPath.Holds (Q : Token → Prop) (p : SymbolPath) : Prop := ∀ t ∈ p.segments, Q t

structure FunctionHead.Holds (Q : Token → Prop) (h : FunctionHead) : Prop where
  name : ∀ t, h.name = .named t → Q t
  parameters : ∀ t ∈ h.parameters, Q t

def TokenTree.HoldsAll (Q : Token → Prop) (trees : List TokenTree) : Prop :=
  ∀ t ∈ tokensOf trees, Q t

theorem TokenTree.holdsAll_cons {Q : Token → Prop} {tree : TokenTree} {trees : List TokenTree} :
    HoldsAll Q (tree :: trees) ↔ (∀ t ∈ tree.tokens, Q t) ∧ HoldsAll Q trees :=
  List.forall_mem_append

theorem TokenTree.holdsAll_append {Q : Token → Prop} {ss ts : List TokenTree} :
    HoldsAll Q (ss ++ ts) ↔ HoldsAll Q ss ∧ HoldsAll Q ts := by
  rw [HoldsAll, tokensOf_append, List.forall_mem_append]
  rfl

namespace Node

mutual
def Holds (Q : Token → Prop) : Node → Prop
  | block _ body => HoldsAll Q body
  | declaration _ _ name => Q name
  | assignment _ target _ value => target.Holds Q ∧ Holds Q value
  | function _ head body => head.Holds Q ∧ HoldsAll Q body
  | returnNothing _ => True
  | returnValue _ value => Holds Q value
  | call _ callee arguments => callee.Holds Q ∧ HoldsAll Q arguments
  | reference _ path tail => (∀ p ∈ path, p.Holds Q) ∧ ∀ trees ∈ tail, TokenTree.HoldsAll Q trees
  | invocation _ path arguments chain tail =>
    (∀ p ∈ path, p.Holds Q) ∧ HoldsAll Q arguments ∧ HoldsAll Q chain ∧
      ∀ trees ∈ tail, TokenTree.HoldsAll Q trees
  | instantiation _ value => Holds Q value
  | array _ elements => HoldsAll Q elements
  | object _ trees => TokenTree.HoldsAll Q trees
  | primitive _ _ token => Q token
  | expression _ trees => TokenTree.HoldsAll Q trees
  | immediate _ head body arguments => head.Holds Q ∧ HoldsAll Q body ∧ HoldsAll Q arguments
  | skipped _ keyword trees => Q keyword ∧ TokenTree.HoldsAll Q trees

def HoldsAll (Q : Token → Prop) : List Node → Prop
  | [] => True
  | n :: ns => Holds Q n ∧ HoldsAll Q ns
end

variable {Q : Token → Prop}

theorem holdsAll_iff {ns : List Node} : HoldsAll Q ns ↔ ∀ n ∈ ns, n.Holds Q := by
  induction ns with
  | nil => simp [HoldsAll]
  | cons n ns ih => simp [HoldsAll, ih]

theorem holdsAll_append {ms ns : List Node} :
    HoldsAll Q (ms ++ ns) ↔ HoldsAll Q ms ∧ HoldsAll Q ns := by
  simp only [holdsAll_iff, List.forall_mem_append]

theorem holdsAll_flatten {nss : List (List Node)} (h : ∀ ns ∈ nss, HoldsAll Q ns) :
    HoldsAll Q nss.flatten := by
  simp only [holdsAll_iff, List.mem_flatten] at h ⊢
  rintro n ⟨ns, hns, hn⟩
  exact h ns hns n hn

theorem holds_withComments {c : List Comment} {n : Node} : (n.withComments c).Holds Q ↔ n.Holds Q := by
  cases n <;> exact Iff.rfl

end Node

/-! ## Readers -/

namespace Reader

variable {α : Type}

/-- The reader gives only what `R` says, from a stream of which `P` holds, and leaves such a one. -/
abbrev Gets (P : TokenStream → Prop) (x : Reader α) (R : α → Prop) : Prop :=
  Holding (fun r : Reading => P r.stream) x R

variable {P : TokenStream → Prop} {Q : Token → Prop} {R : α → Prop}

theorem onStream_gets {x : Streaming α} (h : Holding P x R) : Gets P (onStream x) R := by
  apply Holding.of_ok
  intro r a r' hr hrun
  obtain ⟨s, hs, rfl⟩ := onStream_eq_ok.mp hrun
  exact h.ok hr hs

theorem warn_gets {t : Token} {cause : WarningCause} : Gets P (warn t cause) fun _ => True :=
  fun _ hr => ⟨trivial, hr⟩

theorem tooDeep_gets : Gets P (tooDeep : Reader α) R := by
  apply Holding.of_ok
  intro r a r' _ hrun
  obtain ⟨_, _, _, hrun⟩ := bind_eq_ok.mp hrun
  cases hrun

/-- The level a reader works on is no part of the stream. -/
theorem nested_gets {x : Reader α} (h : Gets P x R) : Gets P (nested x) R := by
  apply Holding.of_ok
  intro r a r' hr hrun
  unfold nested at hrun
  split at hrun
  · exact tooDeep_gets.ok hr hrun
  cases hx : x r.deeper with
  | error e s =>
    rw [hx] at hrun
    cases hrun
  | ok b s =>
    rw [hx] at hrun
    cases hrun
    have hrun : R a ∧ P s.stream := h.ok (s := r.deeper) hr hx
    exact hrun

theorem many_gets {step : Reader (Option α)} (h : Gets P step fun o => ∀ a ∈ o, R a) :
    Gets P (many step) fun as => ∀ a ∈ as, R a := .many h

variable (src : TokenStream.Supplies P Q)
include src

theorem token_gets : Gets P token Q := onStream_gets src.token

theorem peek_gets : Gets P peek Q := onStream_gets src.peek

theorem advance_gets : Gets P advance Q := onStream_gets src.advance

theorem expect_gets (p : TokenPattern) : Gets P (expect p) Q := onStream_gets (src.expect p)

theorem group_gets : Gets P group fun tree => ∀ t ∈ tree.tokens, Q t :=
  onStream_gets (src.groupWithin _)

theorem gather_gets (ends : Nat → Token → Bool) : Gets P (gather ends) (TokenTree.HoldsAll Q) :=
  onStream_gets (src.gather (src.groupWithin _) ends)

theorem looksPast_gets {asks : Bool} {test : Token → Bool} :
    Gets P (looksPast asks test) fun _ => True :=
  .ite ((peek_gets src).skip fun _ => .pure trivial) (.pure trivial)

theorem pass_gets (value : String) : Gets P (pass value) fun _ => True :=
  (expect_gets src _).skip fun _ => (advance_gets src).skip fun _ => .pure trivial

end Reader

/-- The readers one level deeper hold what is supplied. -/
structure Readers.Held (P : TokenStream → Prop) (Q : Token → Prop) (inner : Readers) : Prop where
  statement : Reader.Gets P inner.statement (Node.HoldsAll Q)
  expression : Reader.Gets P inner.expression (Node.Holds Q)
  value : Reader.Gets P inner.value (Node.Holds Q)
  construct : Reader.Gets P inner.construct (TokenTree.HoldsAll Q)

namespace Expression

open Reader Node

variable {P : TokenStream → Prop} {Q : Token → Prop} {inner : Readers}
  (src : TokenStream.Supplies P Q) (h : inner.Held P Q)

def Property.Holds (Q : Token → Prop) : Property → Prop
  | .name t => Q t
  | .computed _ => True

theorem mem_of_stringKey? {tree : TokenTree} {key : Token} (h : stringKey? tree = some key) :
    key ∈ tree.tokens := by
  unfold stringKey? at h
  split at h
  · split at h
    · cases h
      simp [TokenTree.tokens, TokenTree.tokensOf]
    · cases h
  · cases h

theorem pathOf_holds {root : Token} {ps : List Property} {path : SymbolPath}
    (h : pathOf root ps = .ok path) (hroot : Q root) (hps : ∀ p ∈ ps, Property.Holds Q p) :
    path.Holds Q := by
  obtain ⟨rfl, rfl⟩ := pathOf_eq_ok h
  refine List.forall_mem_cons.mpr ⟨hroot, fun t ht => ?_⟩
  exact hps (.name t) (List.mem_map_of_mem ht)

section Source

include src

theorem rest_gets : Gets P rest (TokenTree.HoldsAll Q) := gather_gets src _

theorem continuation_gets : Gets P continuation (TokenTree.HoldsAll Q) :=
  (token_gets src).skip fun _ => .ite (.pure (List.forall_mem_nil _)) (rest_gets src)

theorem tail_gets : Gets P tail fun tail => ∀ trees ∈ tail, TokenTree.HoldsAll Q trees := by
  refine (token_gets src).skip fun t => .ite (.pure nofun) ?_
  refine (rest_gets src).bind fun trees htrees => warn_gets.skip fun _ => .pure ?_
  simpa using htrees

theorem dropTail_gets : Gets P dropTail fun _ => True :=
  (tail_gets src).skip fun _ => .pure trivial

/-- The comma behind an item of a list, or the bracket behind the last one. -/
theorem separated_gets {α : Type} {R : α → Prop} {a : α} (ha : R a) {next : Reader Token}
    (hnext : Gets P next Q) (closing : String) :
    Gets P
      (do
        if (← next).isPunctuation "," then
          let _ ← advance
        else
          let _ ← expectPunctuation closing
        return some a)
      fun o => ∀ b ∈ o, R b := by
  have hitem : ∀ b ∈ some a, R b := by simpa using ha
  refine hnext.skip fun _ => .ite ?_ ?_
  · exact (advance_gets src).skip fun _ => .pure hitem
  · exact (expect_gets src _).skip fun _ => .pure hitem

theorem parameter_gets : Gets P parameter fun o => ∀ t ∈ o, Q t := by
  refine (token_gets src).skip fun _ => .ite (.pure nofun) ?_
  exact (expect_gets src _).bind fun name hname => separated_gets src hname (advance_gets src) ")"

theorem functionName_gets : Gets P functionName fun n => ∀ t, n = .named t → Q t := by
  refine (advance_gets src).bind fun t ht => .ite ?_ ?_
  · refine (advance_gets src).skip fun _ => .pure fun u hu => ?_
    cases hu
    exact ht
  · refine Holding.skip (R := fun _ => True) (fun _ hr => ⟨trivial, hr⟩) fun _ => ?_
    exact Holding.skip (R := fun _ => True) (fun _ hr => ⟨trivial, hr⟩) fun _ => .pure nofun

theorem property_gets : Gets P property fun o => ∀ p ∈ o, Property.Holds Q p := by
  refine (token_gets src).skip fun t => .ite ?_ (.ite ?_ (.pure nofun))
  · refine (advance_gets src).bind fun name hname => .ite ?_ .throw
    exact (advance_gets src).skip fun _ => .pure (by simpa [Property.Holds] using hname)
  · refine (group_gets src).bind fun tree htree => ?_
    cases hkey : stringKey? tree with
    | none => exact .pure (by simp [Property.Holds])
    | some key => exact .pure (by simpa [Property.Holds] using htree key (mem_of_stringKey? hkey))

theorem properties_gets : Gets P properties fun ps => ∀ p ∈ ps, Property.Holds Q p := by
  refine .collect (fun known => .ite ?_ (.pure nofun)) true
  refine (property_gets src).bind fun o ho => ?_
  match o, ho with
  | none, _ => exact .pure nofun
  | some (.name t), ho => exact .pure (by simpa using ho)
  | some (.computed t), ho => exact .pure (by simpa using ho)

theorem path_gets : Gets P path fun o => ∀ p ∈ o, p.Holds Q := by
  refine (token_gets src).bind fun root hroot => (advance_gets src).skip fun _ => ?_
  refine (properties_gets src).bind fun ps hps => ?_
  cases hpath : pathOf root ps with
  | error opener => exact warn_gets.skip fun _ => .pure nofun
  | ok path => exact .pure (by simpa using pathOf_holds hpath hroot hps)

theorem primitive_gets {kind : PrimitiveKind} {t : Token} (ht : Q t) :
    Gets P (primitive kind t) (Holds Q) := by
  refine (advance_gets src).skip fun _ => .ite (.pure ht) ?_
  refine (rest_gets src).bind fun trees htrees => .pure (TokenTree.holdsAll_cons.mpr ⟨?_, htrees⟩)
  exact List.forall_mem_singleton.mpr ht

end Source

include src h

theorem argument_gets : Gets P (argument inner) fun o => ∀ n ∈ o, n.Holds Q := by
  refine (token_gets src).skip fun _ => .ite (.pure nofun) ?_
  exact h.expression.bind fun node hnode => separated_gets src hnode (token_gets src) ")"

theorem arguments_gets : Gets P (arguments inner) (HoldsAll Q) := by
  refine (pass_gets src _).skip fun _ => (many_gets (argument_gets src h)).bind fun nodes hnodes => ?_
  exact (advance_gets src).skip fun _ => .pure (holdsAll_iff.mpr hnodes)

theorem element_gets : Gets P (element inner) fun o => ∀ n ∈ o, n.Holds Q := by
  refine (token_gets src).skip fun _ => .ite (.pure nofun) (.ite ?_ ?_)
  · refine (advance_gets src).skip fun _ => .pure ?_
    simp [Holds, TokenTree.HoldsAll, TokenTree.tokensOf]
  · exact h.expression.bind fun node hnode => separated_gets src hnode (token_gets src) "]"

theorem elements_gets : Gets P (elements inner) (HoldsAll Q) := by
  refine (advance_gets src).skip fun _ => (many_gets (element_gets src h)).bind fun nodes hnodes => ?_
  exact (advance_gets src).skip fun _ => .pure (holdsAll_iff.mpr hnodes)

theorem block_gets : Gets P (block inner) (HoldsAll Q) := by
  refine (many_gets (R := HoldsAll Q) ?_).bind fun nss hnss => .pure (holdsAll_flatten hnss)
  refine (token_gets src).skip fun _ => .ite (.pure nofun) ?_
  exact h.statement.bind fun ns hns => .pure (by simpa using hns)

theorem braces_gets : Gets P (braces inner) (HoldsAll Q) :=
  (pass_gets src _).skip fun _ => (block_gets src h).bind fun _ hbody =>
    (pass_gets src _).skip fun _ => .pure hbody

theorem function_gets : Gets P (function inner) fun made => made.1.Holds Q ∧ HoldsAll Q made.2 := by
  refine (expect_gets src _).skip fun _ => (functionName_gets src).bind fun name hname => ?_
  refine (pass_gets src _).skip fun _ => (many_gets (parameter_gets src)).bind fun ps hps => ?_
  refine (advance_gets src).skip fun _ => (braces_gets src h).bind fun body hbody => .pure ?_
  exact ⟨⟨hname, hps⟩, hbody⟩

theorem calledOrNot_gets (comments : List Comment) {head : FunctionHead} (hhead : head.Holds Q)
    {body : List Node} (hbody : HoldsAll Q body) (opened : Bool) :
    Gets P (calledOrNot inner comments head body opened) (Holds Q) := by
  refine (token_gets src).skip fun t => .ite ?_ ?_
  · refine (arguments_gets src h).bind fun arguments harguments => ?_
    have hnode : (Node.immediate comments head body arguments).Holds Q :=
      ⟨hhead, hbody, harguments⟩
    refine .ite ?_ ?_
    · exact (pass_gets src _).skip fun _ => (dropTail_gets src).skip fun _ => .pure hnode
    · exact (dropTail_gets src).skip fun _ => .pure hnode
  · have hnode : (Node.function comments head body).Holds Q := ⟨hhead, hbody⟩
    refine (dropTail_gets src).skip fun _ => .ite ?_ (.pure hnode)
    exact (pass_gets src _).skip fun _ => (dropTail_gets src).skip fun _ => .pure hnode

theorem immediate_gets : Gets P (immediate inner) (Holds Q) := by
  rw [immediate_eq]
  refine (token_gets src).skip fun lead => (advance_gets src).skip fun keyword => ?_
  refine (function_gets src h).bind fun made hmade => ?_
  obtain ⟨head, body⟩ := made
  have hclosed : Gets P (closedBehind lead) fun _ => True :=
    .ite ((token_gets src).skip fun _ => .pure trivial) (.pure trivial)
  refine hclosed.skip fun closed => ?_
  have hcalled := calledOrNot_gets src h (lead.comments ++ keyword.comments) hmade.1 hmade.2
    (lead.isPunctuation "(" && !closed)
  exact .ite ((advance_gets src).skip fun _ => hcalled) hcalled

theorem link_gets : Gets P (link inner) fun o => ∀ n ∈ o, n.Holds Q := by
  rw [link_eq]
  refine (token_gets src).skip fun t => .ite ?_ (.pure nofun)
  refine (advance_gets src).skip fun first => .ite ?_ .throw
  refine (path_gets src).bind fun path hpath => (token_gets src).skip fun _ => .ite ?_ ?_
  · refine (arguments_gets src h).bind fun arguments harguments => ?_
    cases path with
    | some callee => exact .pure (by simpa [Holds] using ⟨hpath callee rfl, harguments⟩)
    | none => exact .pure (by simpa [Holds, HoldsAll] using harguments)
  · exact .pure (by simpa [Holds] using hpath)

theorem referenceTo_gets (comments : List Comment) {path : Option SymbolPath}
    (hpath : ∀ p ∈ path, p.Holds Q) : Gets P (referenceTo inner comments path) (Holds Q) := by
  refine (token_gets src).skip fun t => .ite ?_ ?_
  · refine (arguments_gets src h).bind fun arguments harguments => ?_
    refine (many_gets (link_gets src h)).bind fun chain hchain => ?_
    refine (tail_gets src).bind fun tail htail => .pure ?_
    exact ⟨hpath, harguments, holdsAll_iff.mpr hchain, htail⟩
  · exact (tail_gets src).bind fun tail htail => .pure ⟨hpath, htail⟩

theorem value_gets : Gets P (value inner) (Holds Q) := by
  refine (token_gets src).bind fun t ht => ?_
  cases primitiveKind? t with
  | some kind => exact primitive_gets src ht
  | none =>
  refine .ite ?_ (.ite ?_ (.ite ?_ (.ite ?_ (.ite ?_ (.ite ?_ (.ite .throw .throw))))))
  · refine (function_gets src h).bind fun made hmade => (dropTail_gets src).skip fun _ => ?_
    exact .pure hmade
  · refine (group_gets src).bind fun head hhead => ?_
    exact (continuation_gets src).bind fun more hmore =>
      .pure (TokenTree.holdsAll_cons.mpr ⟨hhead, hmore⟩)
  · exact (elements_gets src h).bind fun nodes hnodes => (dropTail_gets src).skip fun _ =>
      .pure hnodes
  · refine (group_gets src).bind fun head hhead => ?_
    refine (continuation_gets src).bind fun more hmore => .pure ?_
    split
    · exact TokenTree.holdsAll_cons.mpr ⟨hhead, List.forall_mem_nil _⟩
    · exact TokenTree.holdsAll_cons.mpr ⟨hhead, hmore⟩
  · exact (path_gets src).bind fun path hpath => referenceTo_gets src h _ hpath
  · exact (advance_gets src).skip fun _ => h.expression.bind fun node hnode => .pure hnode

theorem assignmentOrReference_gets (first : Token) :
    Gets P (assignmentOrReference inner first) (Holds Q) := by
  refine (path_gets src).bind fun path hpath => (token_gets src).skip fun operator => ?_
  cases path with
  | none => exact referenceTo_gets src h _ hpath
  | some target =>
    refine .ite ?_ (referenceTo_gets src h _ hpath)
    refine (advance_gets src).skip fun _ => h.expression.bind fun node hnode => .pure ?_
    exact ⟨hpath target rfl, hnode⟩

theorem read_gets : Gets P (read inner) (Holds Q) := by
  rw [read_eq]
  refine (token_gets src).bind fun t ht => (looksPast_gets src).skip fun _ => ?_
  refine .ite (immediate_gets src h) (.ite (assignmentOrReference_gets src h t) (.ite ?_ h.value))
  refine (advance_gets src).skip fun _ => (rest_gets src).bind fun trees htrees => .pure ?_
  exact TokenTree.holdsAll_cons.mpr ⟨List.forall_mem_singleton.mpr ht, htrees⟩

end Expression

namespace Construct

open Reader TokenTree

variable {P : TokenStream → Prop} {Q : Token → Prop} {inner : Readers}
  (src : TokenStream.Supplies P Q) (h : inner.Held P Q)

theorem holdsAll_singleton {tree : TokenTree} (htree : ∀ t ∈ tree.tokens, Q t) :
    HoldsAll Q [tree] :=
  holdsAll_cons.mpr ⟨htree, List.forall_mem_nil _⟩

section Source

include src

theorem leaf_gets : Gets P leaf fun tree => ∀ t ∈ tree.tokens, Q t :=
  (token_gets src).bind fun _ ht => (advance_gets src).skip fun _ =>
    .pure (List.forall_mem_singleton.mpr ht)

theorem bracketed_gets (opening : String) :
    Gets P (bracketed opening) fun tree => ∀ t ∈ tree.tokens, Q t :=
  (expect_gets src _).skip fun _ => group_gets src

theorem semicolon_gets : Gets P semicolon (HoldsAll Q) := by
  refine (token_gets src).bind fun t ht => .ite ?_ (.pure (List.forall_mem_nil _))
  refine (advance_gets src).skip fun _ => .pure ?_
  split
  · exact List.forall_mem_nil _
  · exact holdsAll_singleton (List.forall_mem_singleton.mpr ht)

theorem rest_gets : Gets P rest (HoldsAll Q) :=
  (gather_gets src _).bind fun _ htrees => (semicolon_gets src).bind fun _ hsemicolon =>
    .pure (holdsAll_append.mpr ⟨htrees, hsemicolon⟩)

theorem catchClause_gets : Gets P catchClause fun o => ∀ trees ∈ o, HoldsAll Q trees := by
  refine (token_gets src).skip fun _ => .ite ?_ (.pure nofun)
  refine (leaf_gets src).bind fun word hword => (bracketed_gets src _).bind fun header hheader => ?_
  refine (bracketed_gets src _).bind fun body hbody => .pure ?_
  intro trees htrees
  cases htrees
  exact holdsAll_cons.mpr ⟨hword, holdsAll_cons.mpr ⟨hheader, holdsAll_singleton hbody⟩⟩

theorem optional_gets {word : String} {x : Reader (List TokenTree)} (hx : Gets P x (HoldsAll Q)) :
    Gets P (optional word x) (HoldsAll Q) := by
  refine (token_gets src).skip fun _ => .ite ?_ (.pure (List.forall_mem_nil _))
  exact (leaf_gets src).bind fun first hfirst => hx.bind fun _ htrees =>
    .pure (holdsAll_cons.mpr ⟨hfirst, htrees⟩)

end Source

theorem holdsAll_flatten {parts : List (List TokenTree)} (h : ∀ trees ∈ parts, HoldsAll Q trees) :
    HoldsAll Q parts.flatten := by
  induction parts with
  | nil => exact List.forall_mem_nil _
  | cons trees parts ih =>
    obtain ⟨htrees, hrest⟩ := List.forall_mem_cons.mp h
    exact holdsAll_append.mpr ⟨htrees, ih hrest⟩

include src h

theorem body_gets : Gets P (body inner) (HoldsAll Q) := by
  refine (token_gets src).bind fun t ht => .ite ?_ ?_
  · exact (group_gets src).bind fun tree htree => .pure (holdsAll_singleton htree)
  · rw [isLabel_eq]
    refine (looksPast_gets src).skip fun _ => .ite ?_ (rest_gets src)
    refine h.construct.bind fun trees htrees => .pure (holdsAll_cons.mpr ⟨?_, htrees⟩)
    exact List.forall_mem_singleton.mpr ht

theorem afterKeyword_gets (keyword : String) : Gets P (afterKeyword inner keyword) (HoldsAll Q) := by
  have hbody := body_gets src h
  have hblock {opening : String} := bracketed_gets src opening
  unfold afterKeyword
  split
  · refine hblock.bind fun condition hcondition => hbody.bind fun consequence hconsequence => ?_
    refine (optional_gets src hbody).bind fun alternative halternative => .pure ?_
    rw [List.cons_append]
    exact holdsAll_cons.mpr ⟨hcondition, holdsAll_append.mpr ⟨hconsequence, halternative⟩⟩
  iterate 3
    exact hblock.bind fun header hheader => hbody.bind fun trees htrees =>
      .pure (holdsAll_cons.mpr ⟨hheader, htrees⟩)
  · refine hbody.bind fun repeated hrepeated => (expect_gets src _).skip fun _ => ?_
    refine (leaf_gets src).bind fun word hword => hblock.bind fun condition hcondition => ?_
    refine (semicolon_gets src).bind fun last hlast => .pure (holdsAll_append.mpr ⟨hrepeated, ?_⟩)
    exact holdsAll_cons.mpr ⟨hword, holdsAll_cons.mpr ⟨hcondition, hlast⟩⟩
  · exact hblock.bind fun subject hsubject => hblock.bind fun cases hcases =>
      .pure (holdsAll_cons.mpr ⟨hsubject, holdsAll_singleton hcases⟩)
  · refine hblock.bind fun tried htried => ?_
    refine (many_gets (catchClause_gets src)).bind fun caught hcaught => ?_
    have hbraces : Gets P (do return [← bracketed "\x7b"]) (HoldsAll Q) :=
      hblock.bind fun tree htree => .pure (holdsAll_singleton htree)
    refine (optional_gets src hbraces).bind fun last hlast => .pure ?_
    rw [List.cons_append]
    exact holdsAll_cons.mpr ⟨htried, holdsAll_append.mpr ⟨holdsAll_flatten hcaught, hlast⟩⟩
  iterate 2
    refine (token_gets src).skip fun t => ?_
    have hlast (label : List TokenTree) (hlabel : HoldsAll Q label) :
        Gets P (do return label ++ (← semicolon)) (HoldsAll Q) :=
      (semicolon_gets src).bind fun last hlast => .pure (holdsAll_append.mpr ⟨hlabel, hlast⟩)
    have hlabel : Gets P (do return [← leaf]) (HoldsAll Q) :=
      (leaf_gets src).bind fun tree htree => .pure (holdsAll_singleton htree)
    exact .ite (hlabel.bind hlast) (hlast [] (List.forall_mem_nil _))
  · exact rest_gets src

theorem read_gets : Gets P (read inner) (HoldsAll Q) := by
  refine (token_gets src).skip fun keyword => (advance_gets src).skip fun _ => ?_
  refine .ite ?_ (afterKeyword_gets src h _)
  refine (expect_gets src _).bind fun colon hcolon => (advance_gets src).skip fun _ => ?_
  refine (body_gets src h).bind fun trees htrees => .pure (holdsAll_cons.mpr ⟨?_, htrees⟩)
  exact List.forall_mem_singleton.mpr hcolon

theorem node_gets : Gets P (node inner) (Node.Holds Q) :=
  (token_gets src).bind fun _ hkeyword => (read_gets src h).bind fun _ htrees =>
    warn_gets.skip fun _ => .pure ⟨hkeyword, htrees⟩

end Construct

namespace Statement

open Reader Node

variable {P : TokenStream → Prop} {Q : Token → Prop} {inner : Readers}
  (src : TokenStream.Supplies P Q) (h : inner.Held P Q)

section Source

include src

theorem terminator_gets : Gets P terminator fun _ => True := by
  refine (token_gets src).skip fun _ => .ite ?_ (.ite (.pure trivial) ?_)
  · exact (advance_gets src).skip fun _ => .pure trivial
  · exact (expect_gets src _).skip fun _ => .pure trivial

theorem afterComma_gets {α : Type} {item : Reader α} {R : α → Prop} (hitem : Gets P item R) :
    Gets P (afterComma item) fun o => ∀ a ∈ o, R a := by
  refine (token_gets src).skip fun _ => .ite ?_ (.pure nofun)
  exact (advance_gets src).skip fun _ => hitem.bind fun a ha => .pure (by simpa using ha)

end Source

include src h

theorem expressions_gets : Gets P (expressions inner) (HoldsAll Q) := by
  refine h.expression.bind fun first hfirst => ?_
  refine (many_gets (afterComma_gets src h.expression)).bind fun more hmore => ?_
  exact (terminator_gets src).skip fun _ => .pure ⟨hfirst, holdsAll_iff.mpr hmore⟩

omit src h in
/-- A declared name stands in the declaration and in the assignment of its value. -/
theorem declared_holds {word : DeclarationWord} {leading comments : List Comment} {name : Token}
    (hname : Q name) {value : Node} (hvalue : value.Holds Q) :
    HoldsAll Q
      [.declaration leading word name, .assignment comments { root := name } "=" value] :=
  ⟨hname, ⟨List.forall_mem_singleton.mpr hname, hvalue⟩, trivial⟩

theorem functionDeclaration_gets : Gets P (functionDeclaration inner) (HoldsAll Q) := by
  refine (token_gets src).skip fun _ => (peek_gets src).bind fun name hname => .ite .throw ?_
  exact (Expression.function_gets src h).bind fun made hmade => .pure (declared_holds hname hmade)

theorem declarator_gets (word : DeclarationWord) (leading : List Comment) :
    Gets P (declarator inner word leading) (HoldsAll Q) := by
  refine (expect_gets src _).bind fun name hname => (advance_gets src).skip fun _ => .ite ?_ ?_
  · exact (advance_gets src).skip fun _ => h.expression.bind fun value hvalue =>
      .pure (declared_holds hname hvalue)
  · exact .pure ⟨hname, trivial⟩

theorem declarations_gets : Gets P (declarations inner) (HoldsAll Q) := by
  refine (token_gets src).skip fun _ => (advance_gets src).skip fun _ => ?_
  refine (declarator_gets src h _ _).bind fun first hfirst => ?_
  refine (many_gets (afterComma_gets src (declarator_gets src h _ _))).bind fun more hmore => ?_
  exact (terminator_gets src).skip fun _ =>
    .pure (holdsAll_append.mpr ⟨hfirst, holdsAll_flatten hmore⟩)

omit src h in
theorem returned_holds (comments : List Comment) {value : Node} (hvalue : value.Holds Q)
    {more : List Node} (hmore : ∀ n ∈ more, n.Holds Q) :
    HoldsAll Q (returned comments value more) := by
  induction more generalizing comments value with
  | nil => exact ⟨hvalue, trivial⟩
  | cons next more ih =>
    obtain ⟨hnext, hmore⟩ := List.forall_mem_cons.mp hmore
    refine ⟨?_, ih [] hnext hmore⟩
    split
    · exact hvalue
    · exact holds_withComments.mpr hvalue

theorem returns_gets : Gets P (returns inner) (HoldsAll Q) := by
  refine (token_gets src).skip fun _ => (advance_gets src).skip fun _ => .ite ?_ ?_
  · exact (terminator_gets src).skip fun _ => .pure ⟨trivial, trivial⟩
  · refine h.expression.bind fun first hfirst => ?_
    refine (many_gets (afterComma_gets src h.expression)).bind fun more hmore => ?_
    exact (terminator_gets src).skip fun _ => .pure (returned_holds _ hfirst hmore)

theorem read_gets : Gets P (read inner) (HoldsAll Q) := by
  refine (token_gets src).skip fun t => ?_
  rw [Construct.isLabel_eq]
  refine (looksPast_gets src).skip fun _ => ?_
  have hconstruct : Gets P (do return [← Construct.node inner]) (HoldsAll Q) :=
    (Construct.node_gets src h).bind fun node hnode => .pure ⟨hnode, trivial⟩
  cases t.kind with
  | keyword =>
    refine .ite (functionDeclaration_gets src h) (.ite (declarations_gets src h)
      (.ite (returns_gets src h) (.ite ?_ (.ite hconstruct .throw))))
    exact (advance_gets src).skip fun _ => (terminator_gets src).skip fun _ => .pure trivial
  | punctuation =>
    refine .ite ?_ (.ite ?_ (.ite (expressions_gets src h) .throw))
    · exact (Expression.braces_gets src h).bind fun body hbody => .pure ⟨hbody, trivial⟩
    · exact (advance_gets src).skip fun _ => .pure trivial
  | name => exact .ite hconstruct (expressions_gets src h)
  | atom | string | number | regexp | operator => exact expressions_gets src h
  | eof => exact .throw

end Statement

section Scripts

variable {P : TokenStream → Prop} {Q : Token → Prop} (src : TokenStream.Supplies P Q)
include src

theorem held_within (depth : Nat) : (Readers.within depth).Held P Q := by
  induction depth with
  | zero => exact ⟨Reader.tooDeep_gets, Reader.tooDeep_gets, Reader.tooDeep_gets,
      Reader.tooDeep_gets⟩
  | succ depth ih =>
    exact ⟨Reader.nested_gets (Statement.read_gets src ih),
      Reader.nested_gets (Expression.read_gets src ih),
      Reader.nested_gets (Expression.value_gets src ih),
      Reader.nested_gets (Construct.read_gets src ih)⟩

/-- A script holds what the stream it was read from supplies. -/
theorem Script.holds_ofFeed {feed : TokenFeed} {s : Script} (hfeed : P (.ofFeed feed))
    (h : Script.ofFeed feed = .ok s) : Node.HoldsAll Q s.body := by
  have hread : Reader.Gets P Script.read (Node.HoldsAll Q) :=
    (Expression.block_gets src (held_within src _)).bind fun body hbody =>
      (Reader.token_gets src).skip fun _ => .ite (.pure hbody) .throw
  unfold ofFeed at h
  split at h
  · rename_i body r hrun
    cases h
    exact (hread.ok (s := .ofFeed feed) hfeed hrun).1
  · cases h

end Scripts

end ScriptOutline
