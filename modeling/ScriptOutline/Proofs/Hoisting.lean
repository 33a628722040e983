/-
Binding a hoisted script.

Hoisting moves the declarations with `var` to the front of each function body, where they are
declared anyhow before a node of the body is bound, and keeps the first of each name.  The
later ones only count.  So the scopes of a hoisted script are those of the script, and its
symbols are the same but for how often they were declared, `Recounts`.
-/
import ScriptOutline.Proofs.Occurrence
import ScriptOutline.Proofs.Shape
import ScriptOutline.Proofs.TracedScript

namespace ScriptOutline

/-- The same symbol, declared as often or less often. -/
structure ScriptSymbol.Recounted (x x' : ScriptSymbol) : Prop where
  same : x' = { x with declarations := x'.declarations }
  fewer : x'.declarations ≤ x.declarations

theorem ScriptSymbol.Recounted.refl (x : ScriptSymbol) : x.Recounted x := ⟨rfl, Nat.le_refl _⟩

namespace ScopeTree

/-- The same scopes and names, and the same symbols but for their declarations. -/
structure Recounts (t t' : ScopeTree) : Prop where
  scopes : t'.scopes = t.scopes
  names : t'.names = t.names
  symbols : List.Forall₂ ScriptSymbol.Recounted t.symbols t'.symbols

/-- A name was met and is among those of a scope. -/
def Has (t : ScopeTree) (s : Nat) (name : String) : Prop :=
  name ∈ t.names.known ∧ ((t.locals s).lookup name).isSome

variable {t t' : ScopeTree} {s : Nat} {name : String}

theorem mem_known_of_mention {n : Names} (h : name ∈ n.known) (word : String) :
    name ∈ (n.mention word).known := by
  rw [Names.mention]
  split
  · exact h
  · exact List.mem_append_left _ h

theorem names_declare (t : ScopeTree) (s : Nat) (kind : SymbolKind) (word : Token) :
    (t.declare s kind word).names = t.names.mention word.value := by
  cases h : (t.locals s).lookup word.value with
  | some id => rw [declare_of_some h]; rfl
  | none => rw [declare_of_none h]; rfl

theorem has_declare_self (hs : s < t.scopes.length) (kind : SymbolKind) (word : Token) :
    (t.declare s kind word).Has s word.value := by
  refine ⟨names_declare t s kind word ▸ Names.mem_known_mention _ _, ?_⟩
  cases h : (t.locals s).lookup word.value with
  | some id =>
    rw [declare_of_some h, locals_updateSymbol]
    exact Option.isSome_of_mem h
  | none =>
    rw [declare_of_none h]
    have hfound := lookup_locals_self (t := t.mention word.value)
      (x := { id := t.symbols.length, name := word.value, kind, scope := s,
              position := word.location.position, declarations := 1 }) hs h
    exact Option.isSome_of_mem hfound

theorem Has.declare (h : t.Has s name) (hs : s < t.scopes.length) (kind : SymbolKind)
    (word : Token) : (t.declare s kind word).Has s name := by
  refine ⟨names_declare t s kind word ▸ mem_known_of_mention h.1 _, ?_⟩
  obtain ⟨id, hid⟩ := Option.isSome_iff_exists.1 h.2
  cases hword : (t.locals s).lookup word.value with
  | some i =>
    rw [declare_of_some hword, locals_updateSymbol]
    exact h.2
  | none =>
    rw [declare_of_none hword]
    exact Option.isSome_of_mem (lookup_locals_addSymbol (t := t.mention word.value) hs hid)

theorem updateSymbol_id (t : ScopeTree) (id : Nat) : t.updateSymbol id (fun x => x) = t := by
  rw [updateSymbol]
  exact congrArg (fun symbols => { t with symbols }) (List.modify_id _ _)

namespace Recounts

theorem refl (t : ScopeTree) : Recounts t t := ⟨rfl, rfl, List.forall₂_same.2 fun x _ => .refl x⟩

theorem locals (h : Recounts t t') (s : Nat) : t'.locals s = t.locals s := by
  rw [ScopeTree.locals, h.scopes]
  rfl

theorem lookup (h : Recounts t t') (s : Nat) (name : String) : t'.lookup s name = t.lookup s name :=
  lookup_congr fun _ _ => ⟨h.locals _, by rw [around, h.scopes]; rfl⟩

theorem mention (h : Recounts t t') (name : String) : Recounts (t.mention name) (t'.mention name) :=
  ⟨h.scopes, congrArg (·.mention name) h.names, h.symbols⟩

theorem openScope (h : Recounts t t') (kind : ScopeKind) (p : Nat) :
    Recounts (t.openScope kind p) (t'.openScope kind p) := by
  refine ⟨?_, h.names, h.symbols⟩
  rw [ScopeTree.openScope, h.scopes]
  rfl

theorem addSymbol (h : Recounts t t') (x : ScriptSymbol) :
    Recounts (t.addSymbol x) (t'.addSymbol x) := by
  refine ⟨?_, h.names, ?_⟩
  · rw [ScopeTree.addSymbol, h.scopes, ← h.symbols.length_eq]
    rfl
  · exact List.rel_append h.symbols (.cons (.refl x) .nil)

theorem updateSymbol (h : Recounts t t') (id : Nat) {f g : ScriptSymbol → ScriptSymbol}
    (hfg : ∀ {x x'}, x.Recounted x' → (f x).Recounted (g x')) :
    Recounts (t.updateSymbol id f) (t'.updateSymbol id g) :=
  ⟨h.scopes, h.names, forall₂_modify hfg h.symbols id⟩

theorem declare (h : Recounts t t') (s : Nat) (kind : SymbolKind) (word : Token) :
    Recounts (t.declare s kind word) (t'.declare s kind word) := by
  have hmention := h.mention word.value
  cases hword : (t.locals s).lookup word.value with
  | some id =>
    rw [declare_of_some hword, declare_of_some (h.locals s ▸ hword)]
    refine hmention.updateSymbol id fun {x x'} hx => ⟨?_, Nat.succ_le_succ hx.fewer⟩
    rw [hx.same]
  | none =>
    rw [declare_of_none hword, declare_of_none (h.locals s ▸ hword), ← h.symbols.length_eq]
    exact hmention.addSymbol _

/-- To declare a name again only counts. -/
theorem declare_again (h : Recounts t t') {word : Token} (hword : t'.Has s word.value)
    (kind : SymbolKind) : Recounts (t.declare s kind word) t' := by
  obtain ⟨hknown, hlocal⟩ := hword
  rw [h.locals] at hlocal
  rw [h.names] at hknown
  obtain ⟨id, hid⟩ := Option.isSome_iff_exists.1 hlocal
  have hmention : t.mention word.value = t := by
    rw [ScopeTree.mention, Names.mention, if_pos (List.contains_iff_mem.2 hknown)]
  rw [declare_of_some hid, hmention, ← updateSymbol_id t' id]
  exact h.updateSymbol id fun hx => ⟨hx.same, Nat.le_succ_of_le hx.fewer⟩

theorem declareAll (h : Recounts t t') (s : Nat) (kind : SymbolKind) (words : List Token) :
    Recounts (t.declareAll s kind words) (t'.declareAll s kind words) := by
  induction words generalizing t t' with
  | nil => exact h
  | cons word words ih => exact ih (h.declare s kind word)

/-- To declare only the first of each name gives the same symbols.  The names that are left
out are those that the scope has from before. -/
theorem declareFirsts (h : Recounts t t') (hs : s < t'.scopes.length) (ds : List Declared)
    {known : List String} (hknown : ∀ name ∈ known, t'.Has s name) :
    Recounts (t.declareAll s .varName (ds.map (·.name)))
      (t'.declareAll s .varName ((Declared.firsts known ds).map (·.name))) := by
  induction ds generalizing t t' known with
  | nil => exact h
  | cons d ds ih =>
    rw [Declared.firsts]
    split
    · next hd =>
      -- the scope has the name, so the declaration that is left out would only have counted
      have hhas := hknown _ (List.contains_iff_mem.1 hd)
      exact ih (h.declare_again hhas .varName) hs hknown
    · refine ih (h.declare s .varName d.name) ?_ ?_
      · rwa [length_congr (frames_declare ..)]
      · intro name hname
        rcases List.mem_cons.1 hname with rfl | hname
        · exact has_declare_self hs .varName d.name
        · exact (hknown name hname).declare hs .varName d.name

theorem assign (h : Recounts t t') (s : Nat) (target : SymbolPath) (operator valueKind : String) :
    Recounts (t.assign s target operator valueKind) (t'.assign s target operator valueKind) := by
  cases hsingle : target.single? with
  | none => rwa [assign_of_member hsingle, assign_of_member hsingle]
  | some word =>
    have hmention := h.mention word
    cases hword : t.lookup s word with
    | some id =>
      rw [assign_of_some hsingle hword, assign_of_some hsingle ((h.lookup s word).trans hword)]
      refine hmention.updateSymbol id fun {x x'} hx => ⟨?_, hx.fewer⟩
      rw [hx.same]
    | none =>
      rw [assign_of_none hsingle hword, assign_of_none hsingle ((h.lookup s word).trans hword),
        ← h.symbols.length_eq]
      exact hmention.addSymbol _

end Recounts
end ScopeTree

namespace Node

theorem declaredAll_append (ms ns : List Node) :
    declaredAll (ms ++ ns) = declaredAll ms ++ declaredAll ns := by
  induction ms with
  | nil => rfl
  | cons m ms ih => rw [List.cons_append, declaredAll, declaredAll, ih, List.append_assoc]

theorem declaredAll_toNode (ds : List Declared) : declaredAll (ds.map Declared.toNode) = ds := by
  induction ds with
  | nil => rfl
  | cons d ds ih =>
    rw [List.map_cons, declaredAll, ih]
    rfl

def isVar : Node → Bool
  | declaration _ .varWord _ => true
  | _ => false

theorem Shaped.isVar_eq {role : Role} {n : Node} (h : n.Shaped role) (hrole : role ≠ .statement) :
    n.isVar = false := by
  cases n with
  | declaration => exact absurd h.1 hrole
  | _ => rfl

theorem settleStatements_cons (n : Node) (ns : List Node) :
    settleStatements (n :: ns) =
      if n.isVar then settleStatements ns else settle n :: settleStatements ns := by
  cases n with
  | declaration _ word _ => cases word <;> rfl
  | _ => rfl

mutual
/-- Only a statement declares something, and no statement with `var` is left in a block. -/
theorem declared_settle {role : Role} {n : Node} (h : n.Shaped role) (hn : n.isVar = false) :
    declared (settle n) = [] := by
  cases n with
  | declaration _ word _ =>
    cases word with
    | varWord => cases hn
    | letWord => rfl
  | function | returnNothing | reference | object | primitive | expression | skipped => rfl
  | block _ body => exact declaredAll_settleStatements h.2
  | assignment _ _ _ value =>
    exact declared_settle (n := value) h.2.2.2 (h.2.2.2.isVar_eq (by decide))
  | returnValue _ value | instantiation _ value =>
    exact declared_settle (n := value) h.2 (h.2.isVar_eq (by decide))
  | call _ _ arguments => exact declaredAll_settleAll h.2.2 (by decide)
  | array _ elements => exact declaredAll_settleAll h.2 (by decide)
  | invocation _ _ arguments chain _ =>
    rw [settle, declared, declaredAll_settleAll h.2.1 (by decide),
      declaredAll_settleAll h.2.2.1 (by decide)]
    rfl
  | immediate _ _ _ arguments => exact declaredAll_settleAll h.2.2.2 (by decide)

theorem declaredAll_settleAll {role : Role} {ns : List Node} (h : ShapedAll role ns)
    (hrole : role ≠ .statement) : declaredAll (settleAll ns) = [] := by
  cases ns with
  | nil => rfl
  | cons n ns =>
    rw [settleAll, declaredAll, declared_settle h.1 (h.1.isVar_eq hrole),
      declaredAll_settleAll h.2 hrole]
    rfl

theorem declaredAll_settleStatements {ns : List Node} (h : ShapedAll .statement ns) :
    declaredAll (settleStatements ns) = [] := by
  cases ns with
  | nil => rfl
  | cons n ns =>
    have hrest := declaredAll_settleStatements h.2
    rw [settleStatements_cons]
    split
    · exact hrest
    · next hn =>
      rw [declaredAll, declared_settle h.1 (Bool.eq_false_iff.2 hn), hrest]
      rfl
end

theorem declaredAll_hoist {body : List Node} (h : ShapedAll .statement body) :
    declaredAll (hoist body) = Declared.firsts [] (declaredAll body) := by
  rw [hoist, hoistedNames, declaredAll_append, declaredAll_toNode, declaredAll_settleStatements h,
    List.append_nil]

theorem letNames_settleStatements (ns : List Node) : letNames (settleStatements ns) = letNames ns := by
  induction ns with
  | nil => rfl
  | cons n ns ih =>
    cases n with
    | declaration _ word name =>
      cases word with
      | varWord => exact ih
      | letWord => exact congrArg (name :: ·) ih
    | _ => exact ih

theorem letNames_hoist (body : List Node) : letNames (hoist body) = letNames body := by
  rw [hoist, hoistedNames]
  induction Declared.firsts [] (declaredAll body) with
  | nil => exact letNames_settleStatements body
  | cons d ds ih => exact ih

theorem kindName_settle (n : Node) : (settle n).kindName = n.kindName := by
  cases n <;> rfl

/-! ## Binding -/

/-- The declarations in front of a body do nothing when they are bound. -/
theorem bindAll_hoist (scope : Nat) (body : List Node) (t : ScopeTree) :
    bindAll scope (hoist body) t = bindAll scope (settleStatements body) t := by
  rw [hoist, hoistedNames]
  induction Declared.firsts [] (declaredAll body) with
  | nil => rfl
  | cons d ds ih => exact ih

theorem declareBody_hoist {t t' : ScopeTree} {scope : Nat} (h : t.Recounts t')
    (hs : scope < t'.scopes.length) {body : List Node} (hbody : ShapedAll .statement body) :
    (declareBody scope body t).Recounts (declareBody scope (hoist body) t') := by
  rw [declareBody, declareBody, declareBlock, declareBlock, letNames_hoist, declaredAll_hoist hbody]
  exact (h.declareFirsts hs _ (List.forall_mem_nil _)).declareAll ..

/-- The scope of a hoisted function has the same names. -/
theorem enterFunction_hoist {t t' : ScopeTree} (h : t.Recounts t') (scope : Nat)
    (head : FunctionHead) {body : List Node} (hbody : ShapedAll .statement body) :
    (enterFunction scope head body t).Recounts (enterFunction scope head (hoist body) t') := by
  have hparameters :=
    (h.openScope (.function head.name.text) scope).declareAll t.scopes.length .parameter
      head.parameters
  rw [enterFunction, enterFunction, h.scopes]
  refine declareBody_hoist hparameters ?_ hbody
  rw [ScopeTree.declareAll_eq, ScopeTree.length_congr (ScopeTree.frames_declareEach ..),
    ScopeTree.length_openScope, h.scopes]
  exact Nat.lt_succ_self _

mutual
/-- Scopes that differ in how often their names were declared do so after a node is bound in
one and as it is hoisted in the other. -/
theorem bind_settle {role : Role} {n : Node} (hn : n.Shaped role) {t t' : ScopeTree}
    (h : t.Recounts t') (scope : Nat) : (bind scope n t).Recounts (bind scope (settle n) t') := by
  cases n with
  | declaration | returnNothing | reference | object | primitive | expression | skipped => exact h
  | block _ body =>
    have hblock := (h.openScope .block scope).declareAll t.scopes.length .letName (letNames body)
    rw [settle, bind, bind, h.scopes, declareBlock, declareBlock, letNames_settleStatements]
    exact bindAll_settleStatements hn.2 hblock _
  | function _ head body =>
    have hbody := bindAll_settleStatements hn.2.2 (enterFunction_hoist h scope head hn.2.2)
      t.scopes.length
    -- in the hoisted body the declarations in front are bound as well
    rw [← bindAll_hoist] at hbody
    rw [settle, bind, bind, h.scopes]
    exact hbody
  | immediate _ head body arguments =>
    have harguments := bindAll_settleAll hn.2.2.2 h scope
    have hbody := bindAll_settleStatements hn.2.2.1
      (enterFunction_hoist harguments scope head hn.2.2.1) (bindAll scope arguments t).scopes.length
    rw [← bindAll_hoist] at hbody
    simp only [settle, bind, harguments.scopes]
    exact hbody
  | assignment _ target operator value =>
    rw [settle, bind, bind, kindName_settle]
    exact bind_settle hn.2.2.2 (h.assign scope target operator value.kindName) scope
  | returnValue _ value | instantiation _ value => exact bind_settle hn.2 h scope
  | call _ _ arguments => exact bindAll_settleAll hn.2.2 h scope
  | array _ elements => exact bindAll_settleAll hn.2 h scope
  | invocation _ _ arguments chain _ =>
    exact bindAll_settleAll hn.2.2.1 (bindAll_settleAll hn.2.1 h scope) scope

theorem bindAll_settleAll {role : Role} {ns : List Node} (hns : ShapedAll role ns)
    {t t' : ScopeTree} (h : t.Recounts t') (scope : Nat) :
    (bindAll scope ns t).Recounts (bindAll scope (settleAll ns) t') := by
  cases ns with
  | nil => exact h
  | cons n ns => exact bindAll_settleAll hns.2 (bind_settle hns.1 h scope) scope

theorem bindAll_settleStatements {ns : List Node} (hns : ShapedAll .statement ns)
    {t t' : ScopeTree} (h : t.Recounts t') (scope : Nat) :
    (bindAll scope ns t).Recounts (bindAll scope (settleStatements ns) t') := by
  cases ns with
  | nil => exact h
  | cons n ns =>
    rw [settleStatements_cons]
    split
    · next hvar =>
      have hskip : bind scope n t = t := by
        cases n with
        | declaration => rfl
        | _ => cases hvar
      rw [bindAll, hskip]
      exact bindAll_settleStatements hns.2 h scope
    · exact bindAll_settleStatements hns.2 (bind_settle hns.1 h scope) scope
end

theorem scopes_hoist (names : Names) {body : List Node} (hbody : ShapedAll .statement body) :
    (scopes names body).Recounts (scopes names (hoist body)) := by
  rw [scopes, scopes, bindAll_hoist]
  exact bindAll_settleStatements hbody (declareBody_hoist (.refl _) Nat.one_pos hbody) 0

end Node

open Node

/-- The scopes of a hoisted script are those of the script, with the same symbols in them: their
names, kinds, places and assignments are the same and in the same order, and the names that
were met are known by the same numbers.  A symbol may be declared less often, but one that is
declared stays so, and a global has no declaration in either. -/
theorem Script.hoist_keeps_scopes {feed : TokenFeed} {s : Script} (h : ofFeed feed = .ok s)
    (names : Names) :
    (scopes names (hoist s.body)).scopes = (scopes names s.body).scopes ∧
    (scopes names (hoist s.body)).names = (scopes names s.body).names ∧
    List.Forall₂ (fun x x' => x' = { x with declarations := x'.declarations } ∧
        x'.declarations ≤ x.declarations ∧ (0 < x.declarations → 0 < x'.declarations) ∧
        (x.kind = .global → x.declarations = 0 ∧ x'.declarations = 0))
      (scopes names s.body).symbols (scopes names (hoist s.body)).symbols := by
  have hscopes := scopes_hoist names (shaped_ofFeed h)
  have hsound := sound_scopes names s.body
  have hsound' := sound_scopes names (hoist s.body)
  refine ⟨hscopes.scopes, hscopes.names, ?_⟩
  refine List.forall₂_iff_get.2 ⟨hscopes.symbols.length_eq, fun i hi hi' => ?_⟩
  have hrecounted := hscopes.symbols.get hi hi'
  have hglobal := (hsound.founded i _ (List.getElem?_eq_getElem hi)).global_iff
  have hglobal' := (hsound'.founded i _ (List.getElem?_eq_getElem hi')).global_iff
  have hkind := congrArg ScriptSymbol.kind hrecounted.same
  refine ⟨hrecounted.same, hrecounted.fewer, fun hdeclared => ?_, fun hkeeps => ?_⟩
  · refine Nat.pos_of_ne_zero fun hnone => Nat.ne_of_gt hdeclared ?_
    exact hglobal.1 (hkind.symm.trans (hglobal'.2 hnone))
  · exact ⟨hglobal.1 hkeeps, hglobal'.1 (hkind.trans hkeeps)⟩

/-- A name that is declared again in a block of a function, and a global. -/
theorem Script.hoist_keeps_scopes_block :
    ∃ s, ofFeed (.ofText "function f(a) \x7b \x7b var b; var b; \x7d var a; c = b; \x7d") = .ok s ∧
      (scopes {} s.body).symbols.map (fun x => (x.name, x.declarations)) =
        [("f", 1), ("a", 2), ("b", 2), ("c", 0)] ∧
      (scopes {} (hoist s.body)).symbols.map (fun x => (x.name, x.declarations)) =
        [("f", 1), ("a", 2), ("b", 1), ("c", 0)] ∧
      (scopes {} (hoist s.body)).scopes = (scopes {} s.body).scopes ∧
      (scopes {} (hoist s.body)).names = (scopes {} s.body).names ∧
      List.Forall₂ (fun x x' => x' = { x with declarations := x'.declarations } ∧
          x'.declarations ≤ x.declarations ∧ (0 < x.declarations → 0 < x'.declarations) ∧
          (x.kind = .global → x.declarations = 0 ∧ x'.declarations = 0))
        (scopes {} s.body).symbols (scopes {} (hoist s.body)).symbols := by
  have hfull : (ofFeed (.ofText
        "function f(a) \x7b \x7b var b; var b; \x7d var a; c = b; \x7d")).toOption.any
      (fun s => (scopes {} s.body).symbols.map (fun x => (x.name, x.declarations)) ==
          [("f", 1), ("a", 2), ("b", 2), ("c", 0)] &&
        (scopes {} (hoist s.body)).symbols.map (fun x => (x.name, x.declarations)) ==
          [("f", 1), ("a", 2), ("b", 1), ("c", 0)]) = true := by
    decide +kernel
  obtain ⟨s, hs, hsymbols⟩ := exists_of_any hfull
  obtain ⟨hfirst, hhoisted⟩ := Bool.and_eq_true_iff.1 hsymbols
  exact ⟨s, hs, eq_of_beq hfirst, eq_of_beq hhoisted, hoist_keeps_scopes hs {}⟩

end ScriptOutline
