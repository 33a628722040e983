/-
Binding with a table of names that is shared.

The tables of scopes are keyed by handles, and a handle depends on what others have made known.
`Handled` says that a tree with handles is one with names in which each name has been replaced
by its handle.  Every operation keeps this, so whatever was known before, binding gives the
tree that `Node.scopes` gives, and two tables give trees that a renaming of handles takes to
each other.  Look-ups go through the table first: a name that it has from others has a handle,
which no scope lists.
-/
import Mathlib.Logic.Equiv.Basic
import ScriptOutline.Proofs.ScopeTree
import ScriptOutline.Proofs.TracedScript
import ScriptOutline.Scope.Handles

namespace ScriptOutline

open NameTable

section Handled

variable {σ : Type} [NameTable σ]

/-- The same entry with the handle of its name. -/
def HandledEntry (names : σ) (l : String × Nat) (l' : Nat × Nat) : Prop :=
  handle? names l.1 = some l'.1 ∧ l'.2 = l.2

structure Scope.Handled (names : σ) (s : Scope) (s' : HandleScope) : Prop where
  id : s'.id = s.id
  kind : s'.kind = s.kind
  parent : s'.parent = s.parent
  children : s'.children = s.children
  locals : List.Forall₂ (HandledEntry names) s.locals s'.locals

structure ScriptSymbol.Handled (names : σ) (x : ScriptSymbol) (x' : HandleSymbol) : Prop where
  same : x'.toScriptSymbol = x
  handle : handle? names x.name = some x'.handle

/-- The same scopes and symbols with handles for names.  `tables` is what more is said of the
names that are known to the two. -/
structure ScopeTree.Handled (tables : Names → σ → Prop) (t : ScopeTree) (u : HandleTree σ) :
    Prop where
  scopes : List.Forall₂ (Scope.Handled u.names) t.scopes u.scopes
  symbols : List.Forall₂ (ScriptSymbol.Handled u.names) t.symbols u.symbols
  tables : tables t.names u.names

/-- To make a name known in both tables keeps what is said of them. -/
def MentionKeeps (tables : Names → σ → Prop) : Prop :=
  ∀ {n : Names} {names : σ}, tables n names →
    ∀ name, tables (n.mention name) (intern names name).2

end Handled

theorem forall₂_getElem? {α β : Type} {R : α → β → Prop} {l : List α} {l' : List β}
    (h : List.Forall₂ R l l') (i : Nat) : Option.Rel R l[i]? l'[i]? := by
  induction h generalizing i with
  | nil => exact .none
  | cons hhead htail ih =>
    cases i with
    | zero => exact .some hhead
    | succ i => exact ih i

section Entries

variable {σ : Type} [NameTable σ] {names : σ} {l : List (String × Nat)} {l' : List (Nat × Nat)}
  {name : String} {handle : Nat}

/-- Different names have different handles, so the handle is found where the name is. -/
theorem lookup_handle (h : List.Forall₂ (HandledEntry names) l l')
    (hname : handle? names name = some handle) : l'.lookup handle = l.lookup name := by
  induction h with
  | nil => rfl
  | @cons a b l l' hentry _ ih =>
    obtain ⟨hhandle, hid⟩ := hentry
    rw [List.lookup_cons, List.lookup_cons, ih, hid]
    by_cases hsame : name = a.1
    · have hb : handle = b.1 := by
        rw [hsame, hhandle] at hname
        exact (Option.some.inj hname).symm
      simp [hsame, hb]
    · have hb : handle ≠ b.1 := fun hb => hsame (handle?_inj hname (hb ▸ hhandle))
      simp [beq_false_of_ne hsame, beq_false_of_ne hb]

/-- A name without a handle is none of the names. -/
theorem lookup_unknown (h : List.Forall₂ (HandledEntry names) l l')
    (hname : handle? names name = none) : l.lookup name = none := by
  induction h with
  | nil => rfl
  | @cons a b l l' hentry _ ih =>
    have hne : name ≠ a.1 := fun hsame => by
      rw [hsame, hentry.1] at hname
      cases hname
    rw [List.lookup_cons, beq_false_of_ne hne]
    exact ih

end Entries

theorem HandleTree.find_eq {σ : Type} (u : HandleTree σ) (s handle : Nat) :
    u.find s handle = ((u.locals s).lookup handle).or
      ((u.scopes[s]?.bind (·.parent)).bind fun p => if p < s then u.find p handle else none) := by
  rw [find]
  cases (u.locals s).lookup handle with
  | some id => rfl
  | none => cases u.scopes[s]?.bind (·.parent) <;> rfl

namespace ScopeTree.Handled

variable {σ : Type} [NameTable σ] {tables : Names → σ → Prop} {t : ScopeTree} {u : HandleTree σ}
  {name : String} {handle : Nat}

theorem locals (h : Handled tables t u) (s : Nat) :
    List.Forall₂ (HandledEntry u.names) (t.locals s) (u.locals s) := by
  have hscopes := forall₂_getElem? h.scopes s
  rw [ScopeTree.locals, HandleTree.locals]
  generalize t.scopes[s]? = a, u.scopes[s]? = b at hscopes
  cases hscopes with
  | none => exact .nil
  | some hscope => exact hscope.locals

theorem around (h : Handled tables t u) (s : Nat) :
    u.scopes[s]?.bind (·.parent) = t.around s := by
  have hscopes := forall₂_getElem? h.scopes s
  rw [ScopeTree.around]
  generalize t.scopes[s]? = a, u.scopes[s]? = b at hscopes
  cases hscopes with
  | none => rfl
  | some hscope => exact hscope.parent

theorem find (h : Handled tables t u) (hname : handle? u.names name = some handle) (s : Nat) :
    u.find s handle = t.lookup s name := by
  induction s using Nat.strongRecOn with
  | ind s ih =>
    rw [HandleTree.find_eq, lookup_eq, lookup_handle (h.locals s) hname, h.around]
    refine congrArg _ (Option.bind_congr fun p _ => ?_)
    split
    · next hp => exact ih p hp
    · rfl

theorem lookup_of_unknown (h : Handled tables t u) (hname : handle? u.names name = none)
    (s : Nat) : t.lookup s name = none := by
  induction s using Nat.strongRecOn with
  | ind s ih =>
    rw [lookup_eq, lookup_unknown (h.locals s) hname, Option.none_or, Option.bind_eq_none_iff]
    intro p _
    split
    · next hp => exact ih p hp
    · rfl

/-- A name stands for the same symbol, whether the table has it from the script, from others or
not at all. -/
theorem lookup (h : Handled tables t u) (s : Nat) (name : String) :
    u.lookup s name = t.lookup s name := by
  rw [HandleTree.lookup]
  cases hname : handle? u.names name with
  | none => exact (h.lookup_of_unknown hname s).symm
  | some handle => exact h.find hname s

theorem start {n : Names} {names : σ} (htables : tables n names) :
    Handled tables (.start n) (.start names) :=
  ⟨.cons ⟨rfl, rfl, rfl, rfl, .nil⟩ .nil, .nil, htables⟩

theorem openScope (h : Handled tables t u) (kind : ScopeKind) (p : Nat) :
    Handled tables (t.openScope kind p) (u.openScope kind p) := by
  refine ⟨?_, h.symbols, h.tables⟩
  rw [ScopeTree.openScope, HandleTree.openScope, ← h.scopes.length_eq]
  refine List.rel_append (forall₂_modify (fun hs => ?_) h.scopes p)
    (.cons ⟨rfl, rfl, rfl, rfl, .nil⟩ .nil)
  exact ⟨hs.id, hs.kind, hs.parent, congrArg (· ++ _) hs.children, hs.locals⟩

theorem updateSymbol (h : Handled tables t u) (id : Nat) {f : ScriptSymbol → ScriptSymbol}
    (hf : ∀ x, (f x).name = x.name) :
    Handled tables (t.updateSymbol id f) (u.updateSymbol id f) := by
  refine ⟨h.scopes, forall₂_modify (fun hx => ⟨congrArg f hx.same, ?_⟩) h.symbols id, h.tables⟩
  rw [hf]
  exact hx.handle

variable (hkeeps : MentionKeeps tables)

include hkeeps

theorem mention (h : Handled tables t u) (name : String) :
    Handled tables (t.mention name) (u.mention name) := by
  refine ⟨h.scopes.imp fun _ _ hs => ?_, h.symbols.imp fun _ _ hx => ?_, hkeeps h.tables name⟩
  · exact ⟨hs.id, hs.kind, hs.parent, hs.children,
      hs.locals.imp fun _ _ hl => ⟨handle?_kept hl.1 name, hl.2⟩⟩
  · exact ⟨hx.same, handle?_kept hx.handle name⟩

/-- The table has the name of the symbol when it is asked for it a second time. -/
theorem addSymbol (h : Handled tables t u) (x : ScriptSymbol)
    (hknown : t.names.mention x.name = t.names) :
    Handled tables (t.addSymbol x) (u.addSymbol x) := by
  have hmention := h.mention hkeeps x.name
  have hhandle := handle?_intern u.names x.name
  refine ⟨?_, List.rel_append hmention.symbols (.cons ⟨rfl, hhandle⟩ .nil), ?_⟩
  · refine forall₂_modify (fun hs => ?_) hmention.scopes x.scope
    exact ⟨hs.id, hs.kind, hs.parent, hs.children,
      List.rel_append hs.locals (.cons ⟨hhandle, h.symbols.length_eq.symm⟩ .nil)⟩
  · exact hknown ▸ hmention.tables

theorem declare (h : Handled tables t u) (s : Nat) (kind : SymbolKind) (word : Token) :
    Handled tables (t.declare s kind word) (u.declare s kind word) := by
  have hmention := h.mention hkeeps word.value
  have hfound := lookup_handle (hmention.locals s) (handle?_intern u.names word.value)
  cases hword : (t.locals s).lookup word.value with
  | some id =>
    rw [declare_of_some hword]
    simp only [HandleTree.declare, hfound.trans hword]
    exact hmention.updateSymbol id fun _ => rfl
  | none =>
    rw [declare_of_none hword]
    simp only [HandleTree.declare, hfound.trans hword]
    rw [h.symbols.length_eq]
    exact hmention.addSymbol hkeeps _ (Names.mention_mention _ _)

theorem declareAll (h : Handled tables t u) (s : Nat) (kind : SymbolKind) (words : List Token) :
    Handled tables (t.declareAll s kind words) (u.declareAll s kind words) := by
  induction words generalizing t u with
  | nil => exact h
  | cons word words ih => exact ih (h.declare hkeeps s kind word)

theorem assign (h : Handled tables t u) (s : Nat) (target : SymbolPath)
    (operator valueKind : String) :
    Handled tables (t.assign s target operator valueKind)
      (u.assign s target operator valueKind) := by
  cases hsingle : target.single? with
  | none =>
    rw [assign_of_member hsingle]
    simp only [HandleTree.assign, hsingle]
    exact h
  | some name =>
    have hmention := h.mention hkeeps name
    have hfound : (u.mention name).find s (intern u.names name).1 = t.lookup s name :=
      (hmention.find (handle?_intern u.names name) s).trans (lookup_mention t name s name)
    cases hname : t.lookup s name with
    | some id =>
      rw [assign_of_some hsingle hname]
      simp only [HandleTree.assign, hsingle, hfound.trans hname]
      exact hmention.updateSymbol id fun _ => rfl
    | none =>
      rw [assign_of_none hsingle hname]
      simp only [HandleTree.assign, hsingle, hfound.trans hname]
      rw [h.symbols.length_eq]
      exact hmention.addSymbol hkeeps _ (Names.mention_mention _ _)

theorem declareBlock (h : Handled tables t u) (s : Nat) (body : List Node) :
    Handled tables (Node.declareBlock s body t) (u.declareBlock s body) :=
  h.declareAll hkeeps s .letName _

theorem declareBody (h : Handled tables t u) (s : Nat) (body : List Node) :
    Handled tables (Node.declareBody s body t) (u.declareBody s body) :=
  (h.declareAll hkeeps s .varName _).declareBlock hkeeps s body

theorem enterFunction (h : Handled tables t u) (s : Nat) (head : FunctionHead)
    (body : List Node) :
    Handled tables (Node.enterFunction s head body t) (u.enterFunction s head body) := by
  rw [Node.enterFunction, HandleTree.enterFunction, ← h.scopes.length_eq]
  exact ((h.openScope _ s).declareAll hkeeps _ .parameter _).declareBody hkeeps _ body

omit hkeeps

mutual
theorem bind (hkeeps : MentionKeeps tables) {t : ScopeTree} {u : HandleTree σ}
    (h : Handled tables t u) (s : Nat) (n : Node) :
    Handled tables (n.bind s t) (u.bind s n) := by
  cases n with
  | block _ body =>
    rw [Node.bind, HandleTree.bind, ← h.scopes.length_eq]
    exact ((h.openScope .block s).declareBlock hkeeps _ body).bindAll hkeeps _ body
  | assignment _ target operator value =>
    exact (h.assign hkeeps s target operator _).bind hkeeps s value
  | function _ head body =>
    rw [Node.bind, HandleTree.bind, ← h.scopes.length_eq]
    exact (h.enterFunction hkeeps s head body).bindAll hkeeps _ body
  | immediate _ head body arguments =>
    have harguments := h.bindAll hkeeps s arguments
    rw [Node.bind, HandleTree.bind, ← harguments.scopes.length_eq]
    exact (harguments.enterFunction hkeeps s head body).bindAll hkeeps _ body
  | returnValue _ value | instantiation _ value => exact h.bind hkeeps s value
  | call _ _ arguments => exact h.bindAll hkeeps s arguments
  | invocation _ _ arguments chain _ =>
    exact (h.bindAll hkeeps s arguments).bindAll hkeeps s chain
  | array _ elements => exact h.bindAll hkeeps s elements
  | declaration | returnNothing | reference | object | primitive | expression | skipped => exact h

theorem bindAll (hkeeps : MentionKeeps tables) {t : ScopeTree} {u : HandleTree σ}
    (h : Handled tables t u) (s : Nat) (ns : List Node) :
    Handled tables (Node.bindAll s ns t) (u.bindAll s ns) := by
  cases ns with
  | nil => exact h
  | cons n ns => exact (h.bind hkeeps s n).bindAll hkeeps s ns
end

theorem symbol (h : Handled tables t u) (id : Nat) :
    (u.symbols[id]?).map (·.toScriptSymbol) = t.symbols[id]? := by
  have hsymbols := forall₂_getElem? h.symbols id
  generalize t.symbols[id]? = a, u.symbols[id]? = b at hsymbols
  cases hsymbols with
  | none => rfl
  | some hsymbol => exact congrArg some hsymbol.same

theorem symbolsIn (h : Handled tables t u) (s : Nat) :
    (u.symbolsIn s).map (·.toScriptSymbol) = t.symbolsIn s := by
  rw [HandleTree.symbolsIn, ScopeTree.symbolsIn, List.map_filterMap]
  simp only [h.symbol]
  -- only the numbers of the symbols are read
  have hentries := h.locals s
  generalize t.locals s = l, u.locals s = l' at hentries
  induction hentries with
  | nil => rfl
  | cons hentry _ ih => rw [List.filterMap_cons, List.filterMap_cons, hentry.2, ih]

theorem outlineLines (h : Handled tables t u) (fuel depth s : Nat) :
    u.outlineLines fuel depth s = t.outlineLines fuel depth s := by
  induction fuel generalizing depth s with
  | zero => rfl
  | succ fuel ih =>
    have hscopes := forall₂_getElem? h.scopes s
    rw [HandleTree.outlineLines, ScopeTree.outlineLines, ← h.symbolsIn s, List.map_map]
    generalize t.scopes[s]? = a, u.scopes[s]? = b at hscopes
    cases hscopes with
    | none => rfl
    | some hscope =>
      simp only [hscope.kind, hscope.children, funext (ih (depth + 1))]
      rfl

theorem outline (h : Handled tables t u) : u.outline = t.outline := by
  rw [HandleTree.outline, ScopeTree.outline, h.outlineLines, h.scopes.length_eq]

end ScopeTree.Handled

/-! ## Two tables -/

/-- A renaming is found for as many names as are met, and made one of all handles. -/
theorem exists_renaming (words : List String) {f g : String → Nat}
    (hf : ∀ a ∈ words, ∀ b ∈ words, f a = f b → a = b)
    (hg : ∀ a ∈ words, ∀ b ∈ words, g a = g b → a = b) :
    ∃ ρ : Equiv.Perm Nat, ∀ a ∈ words, ρ (f a) = g a := by
  induction words with
  | nil => exact ⟨Equiv.refl Nat, by simp⟩
  | cons word words ih =>
    obtain ⟨ρ, hρ⟩ := ih (fun a ha b hb => hf a (.tail _ ha) b (.tail _ hb))
      (fun a ha b hb => hg a (.tail _ ha) b (.tail _ hb))
    -- what the handle of the first word goes to changes places with what it should go to
    refine ⟨ρ.trans (Equiv.swap (ρ (f word)) (g word)), fun a ha => ?_⟩
    rw [Equiv.trans_apply]
    by_cases hsame : a = word
    · rw [hsame]
      exact Equiv.swap_apply_left _ _
    · have hword : word ∈ word :: words := List.mem_cons_self
      have hmem : a ∈ words := List.mem_of_ne_of_mem hsame ha
      have hfrom : ρ (f a) ≠ ρ (f word) := fun h => hsame (hf a ha word hword (ρ.injective h))
      have hto : ρ (f a) ≠ g word := fun h => hsame (hg a ha word hword ((hρ a hmem).symm.trans h))
      rw [Equiv.swap_apply_of_ne_of_ne hfrom hto, hρ a hmem]

def NameTable.handle {σ : Type} [NameTable σ] (names : σ) (name : String) : Nat :=
  (handle? names name).getD 0

def Scope.withHandles (handle : String → Nat) (s : Scope) : HandleScope :=
  { id := s.id, kind := s.kind, parent := s.parent, children := s.children,
    locals := s.locals.map fun l => (handle l.1, l.2) }

def ScriptSymbol.withHandle (handle : String → Nat) (x : ScriptSymbol) : HandleSymbol :=
  { toScriptSymbol := x, handle := handle x.name }

def ScopeTree.words (t : ScopeTree) : List String :=
  t.scopes.flatMap (fun s => s.locals.map (·.1)) ++ t.symbols.map (·.name)

section Renaming

variable {σ : Type} [NameTable σ] {names : σ} {tables : Names → σ → Prop} {t : ScopeTree}
  {u v : HandleTree σ}

theorem eq_map_of_forall₂ {α β : Type} {f : α → β} {l : List α} {l' : List β}
    (h : List.Forall₂ (fun a b => f a = b) l l') : l' = l.map f := by
  rw [← List.forall₂_map_left_iff, List.forall₂_eq_eq_eq] at h
  exact h.symm

theorem exists_of_forall₂ {α β : Type} {R : α → β → Prop} {l : List α} {l' : List β}
    (h : List.Forall₂ R l l') {a : α} (ha : a ∈ l) : ∃ b ∈ l', R a b := by
  obtain ⟨i, hi⟩ := List.mem_iff_getElem?.1 ha
  have hrel := forall₂_getElem? h i
  rw [hi] at hrel
  generalize hb : l'[i]? = b at hrel
  cases hrel with
  | some hab => exact ⟨_, List.mem_of_getElem? hb, hab⟩

theorem NameTable.handle_eq {name : String} {handle : Nat} (h : handle? names name = some handle) :
    NameTable.handle names name = handle := by
  rw [NameTable.handle, h]
  rfl

theorem Scope.Handled.eq {s : Scope} {s' : HandleScope} (h : s.Handled names s') :
    s.withHandles (NameTable.handle names) = s' := by
  obtain ⟨id, kind, parent, children, locals⟩ := s'
  obtain ⟨rfl, rfl, rfl, rfl, hlocals⟩ := h
  have heq : locals = s.locals.map fun l => (NameTable.handle names l.1, l.2) :=
    eq_map_of_forall₂ (hlocals.imp fun _ _ hl => Prod.ext (NameTable.handle_eq hl.1) hl.2.symm)
  rw [Scope.withHandles, heq]

theorem ScriptSymbol.Handled.eq {x : ScriptSymbol} {x' : HandleSymbol} (h : x.Handled names x') :
    x.withHandle (NameTable.handle names) = x' := by
  obtain ⟨y, handle⟩ := x'
  obtain ⟨rfl, hhandle⟩ := h
  rw [ScriptSymbol.withHandle, NameTable.handle_eq hhandle]

namespace ScopeTree.Handled

theorem scopes_eq (h : Handled tables t u) :
    u.scopes = t.scopes.map (·.withHandles (NameTable.handle u.names)) :=
  eq_map_of_forall₂ (h.scopes.imp fun _ _ hs => hs.eq)

theorem symbols_eq (h : Handled tables t u) :
    u.symbols = t.symbols.map (·.withHandle (NameTable.handle u.names)) :=
  eq_map_of_forall₂ (h.symbols.imp fun _ _ hx => hx.eq)

theorem known_of_mem_words (h : Handled tables t u) :
    ∀ name ∈ t.words, handle? u.names name = some (NameTable.handle u.names name) := by
  have hknown {name : String} {handle : Nat} (hname : handle? u.names name = some handle) :
      handle? u.names name = some (NameTable.handle u.names name) := by
    rw [NameTable.handle_eq hname, hname]
  intro name hname
  rcases List.mem_append.1 hname with hname | hname
  · obtain ⟨s, hs, hname⟩ := List.mem_flatMap.1 hname
    obtain ⟨l, hl, rfl⟩ := List.mem_map.1 hname
    obtain ⟨s', -, hs'⟩ := exists_of_forall₂ h.scopes hs
    obtain ⟨l', -, hl'⟩ := exists_of_forall₂ hs'.locals hl
    exact hknown hl'.1
  · obtain ⟨x, hx, rfl⟩ := List.mem_map.1 hname
    obtain ⟨x', -, hx'⟩ := exists_of_forall₂ h.symbols hx
    exact hknown hx'.handle

theorem handle_inj (h : Handled tables t u) : ∀ a ∈ t.words, ∀ b ∈ t.words,
    NameTable.handle u.names a = NameTable.handle u.names b → a = b := by
  intro a ha b hb hsame
  exact handle?_inj (h.known_of_mem_words a ha) (hsame ▸ h.known_of_mem_words b hb)

/-- What is the same tree up to handles is the same up to a renaming of handles. -/
theorem exists_rename (h : Handled tables t u) (h' : Handled tables t v) :
    ∃ ρ : Equiv.Perm Nat, u.scopes = v.scopes.map (·.rename ρ) ∧
      u.symbols = v.symbols.map (·.rename ρ) := by
  obtain ⟨ρ, hρ⟩ := exists_renaming t.words h'.handle_inj h.handle_inj
  refine ⟨ρ, ?_, ?_⟩
  · rw [h.scopes_eq, h'.scopes_eq, List.map_map]
    refine List.map_congr_left fun s hs => ?_
    have hlocals : s.locals.map (fun l => (NameTable.handle u.names l.1, l.2)) =
        s.locals.map fun l => (ρ (NameTable.handle v.names l.1), l.2) := by
      refine List.map_congr_left fun l hl => ?_
      rw [hρ l.1 (List.mem_append_left _ (List.mem_flatMap.2 ⟨s, hs, List.mem_map_of_mem hl⟩))]
    simp only [Function.comp_apply, Scope.withHandles, HandleScope.rename, List.map_map, hlocals]
    rfl
  · rw [h.symbols_eq, h'.symbols_eq, List.map_map]
    refine List.map_congr_left fun x hx => ?_
    have hhandle := hρ x.name (List.mem_append_right _ (List.mem_map_of_mem hx))
    simp only [Function.comp_apply, ScriptSymbol.withHandle, HandleSymbol.rename, hhandle]

end ScopeTree.Handled

end Renaming

namespace HandleTree

variable {σ : Type} [NameTable σ]

/-- Binding with handles gives the tree that binding with names gives. -/
theorem handled_ofBody {tables : Names → σ → Prop} (hkeeps : MentionKeeps tables) {n : Names}
    {names : σ} (htables : tables n names) (body : List Node) :
    (Node.scopes n body).Handled tables (ofBody names body) :=
  ((ScopeTree.Handled.start htables).declareBody hkeeps 0 body).bindAll hkeeps 0 body

/-- What is known beforehand does not influence binding.  Two trees are the same up to a
renaming of handles, with the same outline and the same look-ups, and both are the tree that is
bound by name with handles in place of the names. -/
theorem ofBody_alike (shared fresh : σ) (body : List Node) :
    (∃ ρ : Equiv.Perm Nat,
      (ofBody shared body).scopes = (ofBody fresh body).scopes.map (·.rename ρ) ∧
      (ofBody shared body).symbols = (ofBody fresh body).symbols.map (·.rename ρ)) ∧
    (ofBody shared body).outline = (ofBody fresh body).outline ∧
    (∀ scope name,
      (ofBody shared body).lookup scope name = (ofBody fresh body).lookup scope name) ∧
    ∀ (names : σ) (known : Names),
      (ofBody names body).scopes = (Node.scopes known body).scopes.map
        (·.withHandles (handle (ofBody names body).names)) ∧
      (ofBody names body).symbols = (Node.scopes known body).symbols.map
        (·.withHandle (handle (ofBody names body).names)) ∧
      (ofBody names body).outline = (Node.scopes known body).outline ∧
      ∀ scope name,
        (ofBody names body).lookup scope name = (Node.scopes known body).lookup scope name := by
  have handled (names : σ) (known : Names) :
      (Node.scopes known body).Handled (fun _ _ => True) (ofBody names body) :=
    handled_ofBody (fun _ _ => trivial) trivial body
  have hshared := handled shared {}
  have hfresh := handled fresh {}
  refine ⟨hshared.exists_rename hfresh, hshared.outline.trans hfresh.outline.symm,
    fun scope name => (hshared.lookup scope name).trans (hfresh.lookup scope name).symm,
    fun names known => ?_⟩
  have h := handled names known
  exact ⟨h.scopes_eq, h.symbols_eq, h.outline, h.lookup⟩

/-- Another script has made three names known, of which this one has two.  Their handles change
places, and the name that is left to the other script stands for nothing. -/
theorem ofBody_alike_renamed :
    ∃ s, Script.ofText "var x; \x7b let y; y = x = 1; \x7d z = 2;" = .ok s ∧
      (ofBody (Names.mk ["w", "y", "x"]) s.body).symbols.map (·.handle) = [2, 1, 3] ∧
      (ofBody (Names.mk []) s.body).symbols.map (·.handle) = [0, 1, 2] ∧
      (ofBody (Names.mk ["w", "y", "x"]) s.body).outline =
        (ofBody (Names.mk []) s.body).outline ∧
      ∀ scope, (ofBody (Names.mk ["w", "y", "x"]) s.body).lookup scope "w" = none := by
  have hfull : (Script.ofText "var x; \x7b let y; y = x = 1; \x7d z = 2;").toOption.any (fun s =>
      (ofBody (Names.mk ["w", "y", "x"]) s.body).symbols.map (·.handle) == [2, 1, 3] &&
        (ofBody (Names.mk []) s.body).symbols.map (·.handle) == [0, 1, 2] &&
        (ofBody (Names.mk []) s.body).names.handle? "w" == none) = true := by
    decide +kernel
  obtain ⟨s, hs, hhandles⟩ := Script.exists_of_any hfull
  simp only [Bool.and_eq_true, beq_iff_eq] at hhandles
  obtain ⟨⟨hshared, hfresh⟩, hunknown⟩ := hhandles
  obtain ⟨-, houtline, hlookup, -⟩ := ofBody_alike (Names.mk ["w", "y", "x"]) (Names.mk []) s.body
  refine ⟨s, hs, hshared, hfresh, houtline, fun scope => (hlookup scope "w").trans ?_⟩
  rw [lookup]
  exact congrArg (Option.bind · _) hunknown

end HandleTree

end ScriptOutline
