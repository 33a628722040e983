/-
What the operations on scopes and symbols keep.

A scope tree is `Sound` if every scope but that of the script lies in one with a smaller
number, if the names of a scope and the symbols that live in it refer to each other, and if a
symbol that is never declared is a global that is assigned.  Each operation is described by
what it makes of the places of scopes, `frames`, of their names, `locals`, and of the symbols;
what `lookup` finds follows from these.
-/
import Mathlib.Data.List.Forall2
import ScriptOutline.Scope.Binding

namespace ScriptOutline

/-- A global is assigned and not declared.  Any other symbol is declared. -/
def ScriptSymbol.Founded (x : ScriptSymbol) : Prop :=
  if x.kind = .global then x.declarations = 0 ∧ x.scope = 0 ∧ x.assignments ≠ []
  else 0 < x.declarations

theorem ScriptSymbol.Founded.global_iff {x : ScriptSymbol} (h : x.Founded) :
    x.kind = .global ↔ x.declarations = 0 := by
  rw [Founded] at h
  split at h
  · next hkind => exact iff_of_true hkind h.1
  · next hkind => exact iff_of_false hkind (Nat.ne_of_gt h)

namespace ScopeTree

/-- What each scope belongs to, and the scope around it. -/
def frames (t : ScopeTree) : List (ScopeKind × Option Nat) := t.scopes.map fun s => (s.kind, s.parent)

def around (t : ScopeTree) (scope : Nat) : Option Nat := t.scopes[scope]?.bind (·.parent)

structure Sound (t : ScopeTree) : Prop where
  inhabited : 0 < t.scopes.length
  outermost : t.around 0 = none
  inside : ∀ i, i + 1 < t.scopes.length → ∃ p ≤ i, t.around (i + 1) = some p
  known : ∀ s name id, (t.locals s).lookup name = some id →
    ∃ x, t.symbols[id]? = some x ∧ x.name = name ∧ x.scope = s
  listed : ∀ id x, t.symbols[id]? = some x → (t.locals x.scope).lookup x.name = some id
  founded : ∀ (id : Nat) (x : ScriptSymbol), t.symbols[id]? = some x → x.Founded

variable {t u : ScopeTree} {s p id : Nat} {name : String} {x : ScriptSymbol}

theorem length_frames (t : ScopeTree) : t.frames.length = t.scopes.length := List.length_map _

theorem around_eq (t : ScopeTree) (s : Nat) : t.around s = t.frames[s]?.bind (·.2) := by
  rw [around, frames, List.getElem?_map, Option.bind_map]
  rfl

theorem locals_eq (t : ScopeTree) (s : Nat) :
    t.locals s = (t.scopes.map (·.locals))[s]?.getD [] := by
  rw [locals, List.getElem?_map]

theorem locals_of_length_le (h : t.scopes.length ≤ s) : t.locals s = [] := by
  rw [locals, List.getElem?_eq_none h]
  rfl

theorem map_modify {α β : Type} {f : α → β} {g : α → α} {k : β → β} (h : ∀ a, f (g a) = k (f a))
    (l : List α) (i : Nat) : (l.modify i g).map f = (l.map f).modify i k := by
  refine List.ext_getElem? fun j => ?_
  rw [List.getElem?_map, List.getElem?_modify, List.getElem?_modify, List.getElem?_map]
  cases l[j]? with
  | none => rfl
  | some a => by_cases hij : i = j <;> simp [hij, h]

/-- What a change leaves as it is stays the same. -/
theorem map_modify_same {α β : Type} {f : α → β} {g : α → α} (h : ∀ a, f (g a) = f a) (l : List α)
    (i : Nat) : (l.modify i g).map f = l.map f :=
  (map_modify (k := id) h l i).trans (List.modify_id _ _)

theorem forall₂_modify {α β : Type} {R : α → β → Prop} {f : α → α} {g : β → β}
    (hfg : ∀ {a b}, R a b → R (f a) (g b)) {l : List α} {l' : List β} (h : List.Forall₂ R l l')
    (i : Nat) : List.Forall₂ R (l.modify i f) (l'.modify i g) := by
  induction h generalizing i with
  | nil => simp
  | cons hhead htail ih =>
    cases i with
    | zero => exact .cons (hfg hhead) htail
    | succ i => exact .cons hhead (ih i)

@[simp] theorem frames_openScope (t : ScopeTree) (kind : ScopeKind) (p : Nat) :
    (t.openScope kind p).frames = t.frames ++ [(kind, some p)] := by
  have hscopes := map_modify_same (f := fun s : Scope => (s.kind, s.parent))
    (g := fun s => { s with children := s.children ++ [t.scopes.length] }) (fun _ => rfl) t.scopes p
  rw [frames, openScope, List.map_append, hscopes]
  rfl

@[simp] theorem frames_addSymbol (t : ScopeTree) (x : ScriptSymbol) :
    (t.addSymbol x).frames = t.frames :=
  map_modify_same (f := fun s : Scope => (s.kind, s.parent))
    (g := fun s => { s with locals := s.locals ++ [(x.name, t.symbols.length)] }) (fun _ => rfl) _ _

@[simp] theorem locals_openScope (t : ScopeTree) (kind : ScopeKind) (p s : Nat) :
    (t.openScope kind p).locals s = t.locals s := by
  have hscopes := map_modify_same (f := Scope.locals)
    (g := fun s => { s with children := s.children ++ [t.scopes.length] }) (fun _ => rfl) t.scopes p
  rw [locals_eq, locals_eq, openScope, List.map_append, hscopes]
  by_cases hs : s < t.scopes.length
  · rw [List.getElem?_append_left (by simpa using hs)]
  · have hs : (t.scopes.map Scope.locals).length ≤ s := by simpa using hs
    rw [List.getElem?_append_right hs, List.getElem?_eq_none hs]
    cases s - (t.scopes.map Scope.locals).length <;> rfl

/-- A new symbol comes last among the names of its scope. -/
theorem locals_addSymbol (h : x.scope < t.scopes.length) (s : Nat) :
    (t.addSymbol x).locals s =
      t.locals s ++ if s = x.scope then [(x.name, t.symbols.length)] else [] := by
  simp only [locals, addSymbol, List.getElem?_modify]
  by_cases hs : s = x.scope
  · subst hs
    rw [List.getElem?_eq_getElem h]
    simp
  · have hne : ¬ x.scope = s := fun e => hs e.symm
    cases t.scopes[s]? with
    | none => simp [hs]
    | some a => simp [hs, hne]

@[simp] theorem locals_updateSymbol (t : ScopeTree) (id : Nat) (f : ScriptSymbol → ScriptSymbol)
    (s : Nat) : (t.updateSymbol id f).locals s = t.locals s := rfl

theorem lookup_singleton {a : String} {i : Nat} :
    [(a, i)].lookup name = some id ↔ name = a ∧ id = i := by
  by_cases h : name = a
  · simp [h, eq_comm]
  · have hbeq : (name == a) = false := beq_false_of_ne h
    simp [List.lookup_cons, hbeq, h]

/-- What is found among the names of a scope is found there with a new symbol too. -/
theorem lookup_locals_addSymbol (h : x.scope < t.scopes.length)
    (hname : (t.locals s).lookup name = some id) :
    ((t.addSymbol x).locals s).lookup name = some id := by
  rw [locals_addSymbol h, List.lookup_append, hname]
  rfl

theorem lookup_locals_self (h : x.scope < t.scopes.length)
    (hfree : (t.locals x.scope).lookup x.name = none) :
    ((t.addSymbol x).locals x.scope).lookup x.name = some t.symbols.length := by
  rw [locals_addSymbol h, if_pos rfl, List.lookup_append, hfree]
  simp

@[simp] theorem symbols_addSymbol (t : ScopeTree) (x : ScriptSymbol) :
    (t.addSymbol x).symbols = t.symbols ++ [x] := rfl

theorem getElem?_symbols_addSymbol {y : ScriptSymbol} :
    (t.addSymbol x).symbols[id]? = some y ↔
      t.symbols[id]? = some y ∨ id = t.symbols.length ∧ y = x := by
  rw [symbols_addSymbol, List.getElem?_append]
  split
  · next h =>
    constructor
    · exact .inl
    · rintro (hy | ⟨rfl, -⟩)
      · exact hy
      · exact absurd h (Nat.lt_irrefl _)
  · next h =>
    have hle : t.symbols.length ≤ id := Nat.le_of_not_lt h
    rw [List.getElem?_eq_none hle, List.getElem?_singleton]
    constructor
    · intro hy
      split at hy
      · cases hy
        exact .inr ⟨by omega, rfl⟩
      · cases hy
    · rintro (hy | ⟨rfl, rfl⟩)
      · cases hy
      · simp

theorem getElem?_symbols_updateSymbol (t : ScopeTree) (id : Nat) (f : ScriptSymbol → ScriptSymbol)
    (j : Nat) : (t.updateSymbol id f).symbols[j]? =
      t.symbols[j]?.map fun x => if id = j then f x else x := List.getElem?_modify _ _ _ _

theorem lookup_eq (t : ScopeTree) (s : Nat) (name : String) :
    t.lookup s name = ((t.locals s).lookup name).or
      ((t.around s).bind fun p => if p < s then t.lookup p name else none) := by
  rw [lookup, around]
  cases (t.locals s).lookup name with
  | some id => rfl
  | none => cases t.scopes[s]?.bind (·.parent) <;> rfl

/-- What a name stands for depends on the scopes with numbers up to that of its own. -/
theorem lookup_congr (h : ∀ i ≤ s, u.locals i = t.locals i ∧ u.around i = t.around i) :
    u.lookup s name = t.lookup s name := by
  induction s using Nat.strongRecOn with
  | ind s ih =>
    obtain ⟨hlocals, haround⟩ := h s (Nat.le_refl s)
    rw [lookup_eq, lookup_eq t, hlocals, haround]
    refine congrArg _ (Option.bind_congr fun p _ => ?_)
    split
    · next hp => exact ih p hp fun i hi => h i (Nat.le_trans hi (Nat.le_of_lt hp))
    · rfl

theorem around_congr (h : u.frames = t.frames) (s : Nat) : u.around s = t.around s := by
  rw [around_eq, around_eq, h]

theorem length_congr (h : u.frames = t.frames) : u.scopes.length = t.scopes.length := by
  rw [← length_frames, ← length_frames, h]

theorem around_openScope_of_lt (hs : s < t.scopes.length) (kind : ScopeKind) (p : Nat) :
    (t.openScope kind p).around s = t.around s := by
  rw [around_eq, around_eq, frames_openScope, List.getElem?_append_left]
  rwa [length_frames]

theorem around_openScope_self (t : ScopeTree) (kind : ScopeKind) (p : Nat) :
    (t.openScope kind p).around t.scopes.length = some p := by
  rw [around_eq, frames_openScope, ← length_frames, List.getElem?_concat_length]
  rfl

theorem length_openScope (t : ScopeTree) (kind : ScopeKind) (p : Nat) :
    (t.openScope kind p).scopes.length = t.scopes.length + 1 := by
  rw [← length_frames, frames_openScope, List.length_append, length_frames]
  rfl

/-- A symbol that joins the outermost scope hides no other. -/
theorem lookup_addSymbol (hx : x.scope = 0) (hinhabited : 0 < t.scopes.length)
    (h : t.lookup s name = some id) : (t.addSymbol x).lookup s name = some id := by
  have hscope : x.scope < t.scopes.length := hx ▸ hinhabited
  induction s using Nat.strongRecOn with
  | ind s ih =>
    rw [lookup_eq, around_congr (frames_addSymbol t x)]
    rw [lookup_eq] at h
    cases hname : (t.locals s).lookup name with
    | some i =>
      rw [hname] at h
      rw [lookup_locals_addSymbol hscope hname]
      exact h
    | none =>
      rw [hname, Option.none_or, Option.bind_eq_some_iff] at h
      obtain ⟨p, hp, hless⟩ := h
      split at hless
      · next hlt =>
        have hne : s ≠ x.scope := by omega
        rw [locals_addSymbol hscope, if_neg hne, List.append_nil, hname, hp, Option.none_or,
          Option.bind_some, if_pos hlt]
        exact ih p hlt hless
      · cases hless

namespace Sound

/-- The scopes around one lead to the outermost, so what is not found is not there. -/
theorem free_outermost (ht : t.Sound) (hs : s < t.scopes.length) (h : t.lookup s name = none) :
    (t.locals 0).lookup name = none := by
  induction s using Nat.strongRecOn with
  | ind s ih =>
    rw [lookup_eq, Option.or_eq_none_iff] at h
    cases s with
    | zero => exact h.1
    | succ i =>
      obtain ⟨p, hp, haround⟩ := ht.inside i hs
      have hless : p < i + 1 := Nat.lt_succ_of_le hp
      rw [haround, Option.bind_some, if_pos hless] at h
      exact ih p hless (Nat.lt_trans hless hs) h.2

/-- What is found nowhere is found once it is a name of the outermost scope. -/
theorem lookup_addSymbol_self (ht : t.Sound) (hx : x.scope = 0) (hs : s < t.scopes.length)
    (h : t.lookup s x.name = none) : (t.addSymbol x).lookup s x.name = some t.symbols.length := by
  have hscope : x.scope < t.scopes.length := hx ▸ ht.inhabited
  have hfree := ht.free_outermost hs h
  rw [← hx] at hfree
  induction s using Nat.strongRecOn with
  | ind s ih =>
    rw [lookup_eq, Option.or_eq_none_iff] at h
    rw [lookup_eq, around_congr (frames_addSymbol t x)]
    cases s with
    | zero =>
      rw [← hx, lookup_locals_self hscope hfree]
      rfl
    | succ i =>
      obtain ⟨p, hp, haround⟩ := ht.inside i hs
      have hless : p < i + 1 := Nat.lt_succ_of_le hp
      have hne : i + 1 ≠ x.scope := by omega
      rw [haround, Option.bind_some, if_pos hless] at h ⊢
      rw [locals_addSymbol hscope, if_neg hne, List.append_nil, h.1, Option.none_or]
      exact ih p hless (Nat.lt_trans hless hs) h.2

theorem exists_symbol (ht : t.Sound) (h : t.lookup s name = some id) :
    ∃ x, t.symbols[id]? = some x ∧ x.name = name := by
  induction s using Nat.strongRecOn with
  | ind s ih =>
    rw [lookup_eq, Option.or_eq_some_iff] at h
    rcases h with h | ⟨-, h⟩
    · obtain ⟨x, hx, hname, -⟩ := ht.known s name id h
      exact ⟨x, hx, hname⟩
    · obtain ⟨p, -, hless⟩ := Option.bind_eq_some_iff.1 h
      split at hless
      · next hlt => exact ih p hlt hless
      · cases hless

/-- The symbols of a scope have different names, and those of different scopes are different. -/
theorem lookup_inj (ht : t.Sound) {s' : Nat} {name' : String}
    (h : (t.locals s).lookup name = some id) (h' : (t.locals s').lookup name' = some id) :
    s' = s ∧ name' = name := by
  obtain ⟨x, hx, rfl, rfl⟩ := ht.known s name id h
  obtain ⟨y, hy, rfl, rfl⟩ := ht.known s' name' id h'
  rw [hx] at hy
  cases hy
  exact ⟨rfl, rfl⟩

theorem mention (ht : t.Sound) (name : String) : (t.mention name).Sound :=
  ⟨ht.inhabited, ht.outermost, ht.inside, ht.known, ht.listed, ht.founded⟩

theorem openScope (ht : t.Sound) (kind : ScopeKind) (hp : p < t.scopes.length) :
    (t.openScope kind p).Sound := by
  refine ⟨?_, ?_, ?_, ?_, ?_, ht.founded⟩
  · rw [length_openScope]
    exact Nat.succ_pos _
  · rw [around_openScope_of_lt ht.inhabited]
    exact ht.outermost
  · intro i hi
    rw [length_openScope] at hi
    rcases Nat.lt_or_ge (i + 1) t.scopes.length with hlt | hge
    · rw [around_openScope_of_lt hlt]
      exact ht.inside i hlt
    · have hlast : i + 1 = t.scopes.length := by omega
      exact ⟨p, by omega, hlast ▸ around_openScope_self t kind p⟩
  · intro s name id hname
    rw [locals_openScope] at hname
    exact ht.known s name id hname
  · intro id x hx
    rw [locals_openScope]
    exact ht.listed id x hx

theorem addSymbol (ht : t.Sound) (hscope : x.scope < t.scopes.length)
    (hfree : (t.locals x.scope).lookup x.name = none) (hx : x.Founded) : (t.addSymbol x).Sound := by
  have hframes := frames_addSymbol t x
  refine ⟨?_, ?_, ?_, ?_, ?_, ?_⟩
  · rw [length_congr hframes]
    exact ht.inhabited
  · rw [around_congr hframes]
    exact ht.outermost
  · intro i hi
    rw [length_congr hframes] at hi
    rw [around_congr hframes]
    exact ht.inside i hi
  · intro s name id hname
    rw [locals_addSymbol hscope, List.lookup_append, Option.or_eq_some_iff] at hname
    rcases hname with hname | ⟨-, hname⟩
    · obtain ⟨y, hy, hsame⟩ := ht.known s name id hname
      exact ⟨y, getElem?_symbols_addSymbol.2 (.inl hy), hsame⟩
    · split at hname
      · next hs =>
        obtain ⟨rfl, rfl⟩ := lookup_singleton.1 hname
        exact ⟨x, getElem?_symbols_addSymbol.2 (.inr ⟨rfl, rfl⟩), rfl, hs.symm⟩
      · cases hname
  · intro id y hy
    rcases getElem?_symbols_addSymbol.1 hy with hy | ⟨rfl, rfl⟩
    · exact lookup_locals_addSymbol hscope (ht.listed id y hy)
    · exact lookup_locals_self hscope hfree
  · intro id y hy
    rcases getElem?_symbols_addSymbol.1 hy with hy | ⟨rfl, rfl⟩
    · exact ht.founded id y hy
    · exact hx

theorem updateSymbol (ht : t.Sound) {f : ScriptSymbol → ScriptSymbol}
    (hsame : ∀ x, (f x).name = x.name ∧ (f x).scope = x.scope)
    (hf : ∀ x, t.symbols[id]? = some x → (f x).Founded) : (t.updateSymbol id f).Sound := by
  refine ⟨ht.inhabited, ht.outermost, ht.inside, ?_, ?_, ?_⟩
  · intro s name i hname
    obtain ⟨x, hx, rfl, rfl⟩ := ht.known s name i hname
    rw [getElem?_symbols_updateSymbol, hx]
    refine ⟨_, rfl, ?_⟩
    split
    · exact hsame x
    · exact ⟨rfl, rfl⟩
  · intro i y hy
    rw [getElem?_symbols_updateSymbol, Option.map_eq_some_iff] at hy
    obtain ⟨x, hx, rfl⟩ := hy
    have hlisted := ht.listed i x hx
    split
    · rw [(hsame x).1, (hsame x).2]
      exact hlisted
    · exact hlisted
  · intro i y hy
    rw [getElem?_symbols_updateSymbol, Option.map_eq_some_iff] at hy
    obtain ⟨x, hx, rfl⟩ := hy
    split
    · next hid => exact hf x (hid ▸ hx)
    · exact ht.founded i x hx

end Sound

/-! ## Declaring and assigning

A declaration counts the symbol of the name in its scope or makes one.  An assignment goes to
what the name stands for, which is made a global if there is nothing. -/

theorem lookup_mention (t : ScopeTree) (word : String) (s : Nat) (name : String) :
    (t.mention word).lookup s name = t.lookup s name :=
  lookup_congr fun _ _ => ⟨rfl, rfl⟩

theorem declare_of_some {kind : SymbolKind} {word : Token}
    (h : (t.locals s).lookup word.value = some id) :
    t.declare s kind word = (t.mention word.value).updateSymbol id
      fun x => { x with declarations := x.declarations + 1 } := by
  have hmention : ((t.mention word.value).locals s).lookup word.value = some id := h
  simp only [declare, hmention]

theorem declare_of_none {kind : SymbolKind} {word : Token}
    (h : (t.locals s).lookup word.value = none) :
    t.declare s kind word = (t.mention word.value).addSymbol
      { id := t.symbols.length, name := word.value, kind, scope := s,
        position := word.location.position, declarations := 1 } := by
  have hmention : ((t.mention word.value).locals s).lookup word.value = none := h
  simp only [declare, hmention]
  rfl

section Assign

variable {target : SymbolPath} {operator valueKind : String}

theorem assign_of_member (h : target.single? = none) :
    t.assign s target operator valueKind = t := by
  simp only [assign, h]

theorem assign_of_some (hsingle : target.single? = some name) (h : t.lookup s name = some id) :
    t.assign s target operator valueKind = (t.mention name).updateSymbol id fun x =>
      { x with assignments :=
          x.assignments ++ [{ position := target.root.location.position, operator, valueKind }] } := by
  simp only [assign, hsingle, lookup_mention, h]

theorem assign_of_none (hsingle : target.single? = some name) (h : t.lookup s name = none) :
    t.assign s target operator valueKind = (t.mention name).addSymbol
      { id := t.symbols.length, name, kind := .global, scope := 0
        position := target.root.location.position
        assignments := [{ position := target.root.location.position, operator, valueKind }] } := by
  simp only [assign, hsingle, lookup_mention, h]
  rfl

@[simp] theorem frames_assign (t : ScopeTree) (s : Nat) (target : SymbolPath)
    (operator valueKind : String) : (t.assign s target operator valueKind).frames = t.frames := by
  cases hsingle : target.single? with
  | none => rw [assign_of_member hsingle]
  | some name =>
    cases h : t.lookup s name with
    | some id => rw [assign_of_some hsingle h]; rfl
    | none => rw [assign_of_none hsingle h, frames_addSymbol]; rfl

theorem Sound.assign (ht : t.Sound) (hs : s < t.scopes.length) :
    (t.assign s target operator valueKind).Sound := by
  cases hsingle : target.single? with
  | none => rwa [assign_of_member hsingle]
  | some name =>
    have hmention := ht.mention name
    cases h : t.lookup s name with
    | some id =>
      rw [assign_of_some hsingle h]
      refine hmention.updateSymbol (fun _ => ⟨rfl, rfl⟩) fun x hx => ?_
      have hfounded := ht.founded id x hx
      unfold ScriptSymbol.Founded at hfounded ⊢
      split at hfounded
      · next hkind =>
        rw [if_pos hkind]
        exact ⟨hfounded.1, hfounded.2.1, by simp⟩
      · next hkind =>
        rw [if_neg hkind]
        exact hfounded
    | none =>
      rw [assign_of_none hsingle h]
      exact hmention.addSymbol ht.inhabited (ht.free_outermost hs h) ⟨rfl, rfl, by simp⟩

/-- What a name stands for it still stands for when something is assigned. -/
theorem Sound.lookup_assign (ht : t.Sound) {a : Nat} (h : t.lookup s name = some id) :
    (t.assign a target operator valueKind).lookup s name = some id := by
  cases hsingle : target.single? with
  | none => rwa [assign_of_member hsingle]
  | some word =>
    rw [← lookup_mention t word] at h
    cases ha : t.lookup a word with
    | some i =>
      rw [assign_of_some hsingle ha, ← h]
      exact lookup_congr fun _ _ => ⟨rfl, rfl⟩
    | none =>
      rw [assign_of_none hsingle ha]
      exact lookup_addSymbol rfl ht.inhabited h

end Assign

@[simp] theorem frames_declare (t : ScopeTree) (s : Nat) (kind : SymbolKind) (word : Token) :
    (t.declare s kind word).frames = t.frames := by
  cases h : (t.locals s).lookup word.value with
  | some id => rw [declare_of_some h]; rfl
  | none => rw [declare_of_none h, frames_addSymbol]; rfl

def Owned (t : ScopeTree) (s : Nat) : Prop :=
  ∀ (id : Nat) (x : ScriptSymbol), t.symbols[id]? = some x → x.scope = s → x.kind ≠ .global

theorem Sound.declare (ht : t.Sound) (hs : s < t.scopes.length) (hown : t.Owned s)
    {kind : SymbolKind} (hkind : kind ≠ .global) (word : Token) :
    (t.declare s kind word).Sound ∧ (t.declare s kind word).Owned s := by
  have hmention := ht.mention word.value
  cases h : (t.locals s).lookup word.value with
  | some id =>
    obtain ⟨y, hy, -, hscope⟩ := ht.known s word.value id h
    rw [declare_of_some h]
    refine ⟨hmention.updateSymbol (fun _ => ⟨rfl, rfl⟩) fun x hx => ?_, ?_⟩
    · obtain rfl : y = x := Option.some.inj (hy.symm.trans hx)
      rw [ScriptSymbol.Founded, if_neg (hown id y hy hscope)]
      exact Nat.succ_pos _
    · intro i x hx hxs
      rw [getElem?_symbols_updateSymbol, Option.map_eq_some_iff] at hx
      obtain ⟨z, hz, rfl⟩ := hx
      have hzs : z.scope = s := by split at hxs <;> exact hxs
      split <;> exact hown i z hz hzs
  | none =>
    rw [declare_of_none h]
    refine ⟨hmention.addSymbol hs h ?_, ?_⟩
    · rw [ScriptSymbol.Founded, if_neg hkind]
      exact Nat.one_pos
    · intro i x hx hxs
      rcases getElem?_symbols_addSymbol.1 hx with hx | ⟨-, rfl⟩
      · exact hown i x hx hxs
      · exact hkind

theorem locals_declare_of_ne (hs : s < t.scopes.length) {s' : Nat} (hne : s' ≠ s)
    (kind : SymbolKind) (word : Token) : (t.declare s kind word).locals s' = t.locals s' := by
  cases h : (t.locals s).lookup word.value with
  | some id => rw [declare_of_some h]; rfl
  | none =>
    rw [declare_of_none h, locals_addSymbol (by exact hs), if_neg hne, List.append_nil]
    rfl

def declareEach (t : ScopeTree) (s : Nat) (names : List (SymbolKind × Token)) : ScopeTree :=
  names.foldl (fun t name => t.declare s name.1 name.2) t

theorem declareEach_append (t : ScopeTree) (s : Nat) (ms ns : List (SymbolKind × Token)) :
    t.declareEach s (ms ++ ns) = (t.declareEach s ms).declareEach s ns := List.foldl_append

theorem declareAll_eq (t : ScopeTree) (s : Nat) (kind : SymbolKind) (words : List Token) :
    t.declareAll s kind words = t.declareEach s (words.map (kind, ·)) := by
  rw [declareEach, List.foldl_map]
  rfl

theorem frames_declareEach (t : ScopeTree) (s : Nat) (names : List (SymbolKind × Token)) :
    (t.declareEach s names).frames = t.frames := by
  induction names generalizing t with
  | nil => rfl
  | cons name names ih => exact (ih _).trans (frames_declare ..)

theorem Sound.declareEach (ht : t.Sound) (hs : s < t.scopes.length) (hown : t.Owned s)
    {names : List (SymbolKind × Token)} (hkinds : ∀ name ∈ names, name.1 ≠ .global) :
    (t.declareEach s names).Sound := by
  induction names generalizing t with
  | nil => exact ht
  | cons name names ih =>
    obtain ⟨hkind, hkinds⟩ := List.forall_mem_cons.1 hkinds
    obtain ⟨hsound, howned⟩ := ht.declare hs hown hkind name.2
    refine ih hsound ?_ howned hkinds
    rwa [length_congr (frames_declare ..)]

theorem locals_declareEach_of_ne (hs : s < t.scopes.length) {s' : Nat} (hne : s' ≠ s)
    (names : List (SymbolKind × Token)) : (t.declareEach s names).locals s' = t.locals s' := by
  induction names generalizing t with
  | nil => rfl
  | cons name names ih =>
    have hlength := length_congr (frames_declare t s name.1 name.2)
    exact (ih (hlength ▸ hs)).trans (locals_declare_of_ne hs hne ..)

def enter (t : ScopeTree) (kind : ScopeKind) (p : Nat) (names : List (SymbolKind × Token)) :
    ScopeTree := (t.openScope kind p).declareEach t.scopes.length names

theorem frames_enter (t : ScopeTree) (kind : ScopeKind) (p : Nat)
    (names : List (SymbolKind × Token)) :
    (t.enter kind p names).frames = t.frames ++ [(kind, some p)] := by
  rw [enter, frames_declareEach, frames_openScope]

/-- Nothing lives in a scope before it is opened. -/
theorem Sound.owned_openScope (ht : t.Sound) (kind : ScopeKind) (p : Nat) :
    (t.openScope kind p).Owned t.scopes.length := by
  intro id x hx hscope
  have hlisted := ht.listed id x hx
  rw [hscope, locals_of_length_le (Nat.le_refl _)] at hlisted
  cases hlisted

theorem Sound.enter (ht : t.Sound) (kind : ScopeKind) (hp : p < t.scopes.length)
    {names : List (SymbolKind × Token)} (hkinds : ∀ name ∈ names, name.1 ≠ .global) :
    (t.enter kind p names).Sound := by
  refine (ht.openScope kind hp).declareEach ?_ (ht.owned_openScope kind p) hkinds
  rw [length_openScope]
  exact Nat.lt_succ_self _

/-- A scope that is opened changes nothing for those before it. -/
theorem lookup_enter (hs : s < t.scopes.length) (kind : ScopeKind) (p : Nat)
    (names : List (SymbolKind × Token)) (name : String) :
    (t.enter kind p names).lookup s name = t.lookup s name := by
  refine lookup_congr fun i hi => ?_
  have hlt : i < t.scopes.length := Nat.lt_of_le_of_lt hi hs
  constructor
  · rw [enter, locals_declareEach_of_ne (by rw [length_openScope]; omega) (Nat.ne_of_lt hlt),
      locals_openScope]
  · rw [enter, around_congr (frames_declareEach ..), around_openScope_of_lt hlt]

end ScopeTree
end ScriptOutline
