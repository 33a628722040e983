/-
How the scopes and symbols of a tree refer to each other.

A tree is `Arranged` if scopes and symbols have their places for numbers, if the children of a
scope are the scopes that lie in it, in order, and if each symbol lives in a scope that its
kind allows.  Each operation keeps this, so binding one node after another does.
-/
import Mathlib.Data.List.Nodup
import ScriptOutline.Proofs.Occurrence

namespace ScriptOutline

/-- A variable lives in a function or in the script, a parameter in a function and a global in
the script. -/
def SymbolKind.LivesIn : SymbolKind → ScopeKind → Prop
  | .varName, kind => kind ≠ .block
  | .letName, _ => True
  | .parameter, kind => ∃ name, kind = .function name
  | .global, kind => kind = .program

namespace ScopeTree

def children (t : ScopeTree) (s : Nat) : List Nat := (t.scopes[s]?.map (·.children)).getD []

/-- A symbol of this kind may live in the scope. -/
def Hosts (t : ScopeTree) (s : Nat) (kind : SymbolKind) : Prop :=
  ∃ frame, t.frames[s]? = some frame ∧ kind.LivesIn frame.1

structure Arranged (t : ScopeTree) : Prop where
  scopeIds : t.scopes.map (·.id) = List.range t.scopes.length
  symbolIds : t.symbols.map (·.id) = List.range t.symbols.length
  program : t.frames[0]? = some (.program, none)
  children : ∀ p, t.children p =
    (List.range t.scopes.length).filter fun s => t.around s == some p
  distinct : ∀ s, ((t.locals s).map (·.1)).Nodup
  lodged : ∀ (id : Nat) (x : ScriptSymbol), t.symbols[id]? = some x → t.Hosts x.scope x.kind

variable {t : ScopeTree} {s p id : Nat} {name : String} {x : ScriptSymbol}

theorem children_eq (t : ScopeTree) (s : Nat) :
    t.children s = (t.scopes.map (·.children))[s]?.getD [] := by
  rw [children, List.getElem?_map]

theorem children_of_length_le (h : t.scopes.length ≤ s) : t.children s = [] := by
  rw [children, List.getElem?_eq_none h]
  rfl

/-- A new scope comes last among the children of the one around it. -/
theorem children_openScope (hp : p < t.scopes.length) (kind : ScopeKind) (s : Nat) :
    (t.openScope kind p).children s =
      t.children s ++ if s = p then [t.scopes.length] else [] := by
  rw [children, openScope]
  rcases Nat.lt_or_ge s t.scopes.length with hs | hs
  · rw [List.getElem?_append_left (by rwa [List.length_modify]), List.getElem?_modify, children,
      List.getElem?_eq_getElem hs]
    by_cases h : s = p
    · subst h
      simp
    · have hne : ¬ p = s := fun e => h e.symm
      simp [h, hne]
  · have hne : s ≠ p := by omega
    have hnone : (t.scopes.modify p fun s =>
        { s with children := s.children ++ [t.scopes.length] }).length ≤ s := by
      rwa [List.length_modify]
    rw [if_neg hne, List.append_nil, children_of_length_le hs, List.getElem?_append_right hnone]
    cases s - (t.scopes.modify p _).length <;> rfl

@[simp] theorem children_addSymbol (t : ScopeTree) (x : ScriptSymbol) (s : Nat) :
    (t.addSymbol x).children s = t.children s := by
  have hscopes := map_modify_same (f := Scope.children)
    (g := fun s => { s with locals := s.locals ++ [(x.name, t.symbols.length)] }) (fun _ => rfl)
    t.scopes x.scope
  rw [children_eq, children_eq, addSymbol, hscopes]

theorem scopeIds_openScope (t : ScopeTree) (kind : ScopeKind) (p : Nat) :
    (t.openScope kind p).scopes.map (·.id) = t.scopes.map (·.id) ++ [t.scopes.length] := by
  have hscopes := map_modify_same (f := Scope.id)
    (g := fun s => { s with children := s.children ++ [t.scopes.length] }) (fun _ => rfl) t.scopes p
  rw [openScope, List.map_append, hscopes]
  rfl

@[simp] theorem scopeIds_addSymbol (t : ScopeTree) (x : ScriptSymbol) :
    (t.addSymbol x).scopes.map (·.id) = t.scopes.map (·.id) :=
  map_modify_same (f := Scope.id)
    (g := fun s => { s with locals := s.locals ++ [(x.name, t.symbols.length)] }) (fun _ => rfl) _ _

theorem Hosts.lt_length {kind : SymbolKind} (h : t.Hosts s kind) : s < t.scopes.length := by
  obtain ⟨frame, hframe, -⟩ := h
  rw [← length_frames]
  exact (List.getElem?_eq_some_iff.1 hframe).1

theorem hosts_congr {u : ScopeTree} (h : u.frames = t.frames) {kind : SymbolKind} :
    u.Hosts s kind ↔ t.Hosts s kind := by
  rw [Hosts, Hosts, h]

namespace Arranged

theorem mention (ht : t.Arranged) (name : String) : (t.mention name).Arranged :=
  ⟨ht.scopeIds, ht.symbolIds, ht.program, ht.children, ht.distinct, ht.lodged⟩

theorem openScope (ht : t.Arranged) (kind : ScopeKind) (hp : p < t.scopes.length) :
    (t.openScope kind p).Arranged := by
  have hlength := length_openScope t kind p
  refine ⟨?_, ht.symbolIds, ?_, fun q => ?_, fun s => ?_, fun id x hx => ?_⟩
  · rw [hlength, List.range_succ, ← ht.scopeIds, scopeIds_openScope]
  · rw [frames_openScope, List.getElem?_append_left, ht.program]
    exact (List.getElem?_eq_some_iff.1 ht.program).1
  · -- the scopes from before lie where they did, and the last one lies in `p`
    have hbefore : (List.range t.scopes.length).filter
        (fun s => (t.openScope kind p).around s == some q) = t.children q := by
      rw [ht.children]
      refine List.filter_congr fun s hs => ?_
      rw [around_openScope_of_lt (List.mem_range.1 hs)]
    rw [children_openScope hp, hlength, List.range_succ, List.filter_append, hbefore,
      List.filter_cons, around_openScope_self]
    by_cases hq : q = p
    · simp [hq]
    · have hne : ¬ p = q := fun e => hq e.symm
      simp [hq, hne]
  · rw [locals_openScope]
    exact ht.distinct s
  · obtain ⟨frame, hframe, hlives⟩ := ht.lodged id x hx
    refine ⟨frame, ?_, hlives⟩
    rw [frames_openScope, List.getElem?_append_left, hframe]
    exact (List.getElem?_eq_some_iff.1 hframe).1

theorem addSymbol (ht : t.Arranged) (hid : x.id = t.symbols.length)
    (hhost : t.Hosts x.scope x.kind) (hfree : (t.locals x.scope).lookup x.name = none) :
    (t.addSymbol x).Arranged := by
  have hframes := frames_addSymbol t x
  refine ⟨?_, ?_, ?_, fun q => ?_, fun s => ?_, fun id y hy => ?_⟩
  · rw [length_congr hframes, ← ht.scopeIds, scopeIds_addSymbol]
  · rw [symbols_addSymbol, List.map_append, ht.symbolIds, List.length_append, List.length_singleton,
      List.range_succ, ← hid]
    rfl
  · rw [hframes]
    exact ht.program
  · rw [children_addSymbol, length_congr hframes, ht.children]
    refine List.filter_congr fun s _ => ?_
    rw [around_congr hframes]
  · rw [locals_addSymbol hhost.lt_length]
    by_cases hs : s = x.scope
    · subst hs
      rw [if_pos rfl, List.map_append]
      refine List.Nodup.append (ht.distinct _) (List.nodup_singleton _) ?_
      -- a name that is not found is not there
      rw [List.map_singleton, List.disjoint_singleton]
      intro hmem
      obtain ⟨entry, hentry, hname⟩ := List.mem_map.1 hmem
      have hother := List.lookup_eq_none_iff.1 hfree entry hentry
      simp [hname] at hother
    · rw [if_neg hs, List.append_nil]
      exact ht.distinct s
  · rw [hosts_congr hframes]
    rcases getElem?_symbols_addSymbol.1 hy with hy | ⟨-, rfl⟩
    · exact ht.lodged id y hy
    · exact hhost

theorem updateSymbol (ht : t.Arranged) {f : ScriptSymbol → ScriptSymbol}
    (hsame : ∀ x, (f x).id = x.id ∧ (f x).scope = x.scope ∧ (f x).kind = x.kind) (i : Nat) :
    (t.updateSymbol i f).Arranged := by
  refine ⟨ht.scopeIds, ?_, ht.program, ht.children, ht.distinct, fun id y hy => ?_⟩
  · rw [ScopeTree.updateSymbol, map_modify_same (fun x => (hsame x).1), List.length_modify]
    exact ht.symbolIds
  · rw [getElem?_symbols_updateSymbol, Option.map_eq_some_iff] at hy
    obtain ⟨x, hx, rfl⟩ := hy
    have hhost : t.Hosts x.scope x.kind := ht.lodged id x hx
    split
    · rw [(hsame x).2.1, (hsame x).2.2]
      exact hhost
    · exact hhost

theorem declare (ht : t.Arranged) {kind : SymbolKind} (hhost : t.Hosts s kind) (word : Token) :
    (t.declare s kind word).Arranged := by
  have hmention := ht.mention word.value
  cases h : (t.locals s).lookup word.value with
  | some id =>
    rw [declare_of_some h]
    refine hmention.updateSymbol (fun _ => ?_) id
    exact ⟨rfl, rfl, rfl⟩
  | none =>
    rw [declare_of_none h]
    exact hmention.addSymbol rfl hhost h

theorem declareEach (ht : t.Arranged) {names : List (SymbolKind × Token)}
    (hhosts : ∀ name ∈ names, t.Hosts s name.1) : (t.declareEach s names).Arranged := by
  induction names generalizing t with
  | nil => exact ht
  | cons name names ih =>
    obtain ⟨hhost, hhosts⟩ := List.forall_mem_cons.1 hhosts
    refine ih (ht.declare hhost name.2) fun other hother => ?_
    rw [hosts_congr (frames_declare ..)]
    exact hhosts other hother

theorem assign (ht : t.Arranged) (hsound : t.Sound) (hs : s < t.scopes.length)
    (target : SymbolPath) (operator valueKind : String) :
    (t.assign s target operator valueKind).Arranged := by
  cases hsingle : target.single? with
  | none => rwa [assign_of_member hsingle]
  | some name =>
    have hmention := ht.mention name
    cases h : t.lookup s name with
    | some id =>
      rw [assign_of_some hsingle h]
      refine hmention.updateSymbol (fun _ => ?_) id
      exact ⟨rfl, rfl, rfl⟩
    | none =>
      rw [assign_of_none hsingle h]
      exact hmention.addSymbol rfl ⟨_, ht.program, rfl⟩ (hsound.free_outermost hs h)

theorem enter (ht : t.Arranged) {kind : ScopeKind} (hp : p < t.scopes.length)
    {names : List (SymbolKind × Token)} (hlives : ∀ name ∈ names, name.1.LivesIn kind) :
    (t.enter kind p names).Arranged := by
  refine (ht.openScope kind hp).declareEach fun name hname => ⟨(kind, some p), ?_, hlives name hname⟩
  rw [frames_openScope, ← length_frames, List.getElem?_concat_length]

end Arranged
end ScopeTree

/-! ## Binding -/

namespace Node

theorem bodyNames_livesIn {kind : ScopeKind} (hkind : kind ≠ .block) (body : List Node) :
    ∀ name ∈ bodyNames body, name.1.LivesIn kind := by
  intro name hname
  rw [bodyNames, List.mem_append, List.mem_map, List.mem_map] at hname
  rcases hname with ⟨d, -, rfl⟩ | ⟨word, -, rfl⟩
  · exact hkind
  · trivial

theorem functionNames_livesIn (function : String) (parameters : List Token) (body : List Node) :
    ∀ name ∈ parameters.map (SymbolKind.parameter, ·) ++ bodyNames body,
      name.1.LivesIn (.function function) := by
  refine List.forall_mem_append.2 ⟨fun name hname => ?_, bodyNames_livesIn (by simp) body⟩
  obtain ⟨word, -, rfl⟩ := List.mem_map.1 hname
  exact ⟨function, rfl⟩

/-- The names that a node declares may live in the scope that it opens. -/
theorem ownNames_livesIn {n : Node} {kind : ScopeKind} (h : n.scopeKind? = some kind) :
    ∀ name ∈ n.ownNames, name.1.LivesIn kind := by
  cases n with
  | block c body =>
    intro name hname
    obtain ⟨word, -, rfl⟩ := List.mem_map.1 hname
    trivial
  | function c head body | immediate c head body =>
    cases h
    exact functionNames_livesIn _ _ _
  | _ => cases h

end Node

namespace ScopeTree

open Node

variable {t : ScopeTree} {o : Occurrence} {os : List Occurrence}

theorem Arranged.meet (ht : t.Arranged) (hsound : t.Sound) (hs : o.scope < t.scopes.length) :
    (t.meet o).Arranged := by
  rcases t.meet_cases o with ⟨kind, hkind, hmeet⟩ | ⟨_, _, _, _, -, hmeet⟩ | ⟨-, -, hmeet⟩
  · rw [hmeet]
    exact ht.enter hs (ownNames_livesIn hkind)
  · rw [hmeet]
    exact ht.assign hsound hs ..
  · rwa [hmeet]

theorem Arranged.meetAll (ht : t.Arranged) (hsound : t.Sound)
    (hos : InOrder t.scopes.length os) : (t.meetAll os).Arranged := by
  induction os generalizing t with
  | nil => exact ht
  | cons o os ih =>
    obtain ⟨hs, hos⟩ := inOrder_meet hos
    exact ih (ht.meet hsound hs) (hsound.meet hs) hos

end ScopeTree

namespace Node

open ScopeTree

theorem arranged_start (names : Names) : (ScopeTree.start names).Arranged := by
  have hlocals (s : Nat) : (ScopeTree.start names).locals s = [] := by cases s <;> rfl
  refine ⟨rfl, rfl, rfl, fun p => ?_, fun s => ?_, fun id x hx => nomatch hx⟩
  · have hchildren : (ScopeTree.start names).children p = [] := by cases p <;> rfl
    rw [hchildren]
    rfl
  · rw [hlocals]
    exact List.nodup_nil

theorem arranged_outermost (names : Names) (body : List Node) : (outermost names body).Arranged :=
  (arranged_start names).declareEach fun name hname =>
    ⟨(.program, none), rfl, bodyNames_livesIn (by simp) body name hname⟩

theorem arranged_scopes (names : Names) (body : List Node) : (scopes names body).Arranged := by
  rw [scopes_eq]
  exact (arranged_outermost names body).meetAll (sound_outermost names body)
    (inOrder_body names body)

end Node

namespace ScopeTree

variable {t : ScopeTree} {s p id : Nat} {name : String} {x : ScriptSymbol}

theorem lookup_eq_some_iff_mem {l : List (String × Nat)} (h : (l.map (·.1)).Nodup) :
    l.lookup name = some id ↔ (name, id) ∈ l := by
  induction l with
  | nil => simp
  | cons entry l ih =>
    obtain ⟨word, i⟩ := entry
    rw [List.map_cons, List.nodup_cons] at h
    rw [List.lookup_cons, List.mem_cons, Prod.mk.injEq]
    by_cases hname : name = word
    · subst hname
      have hnot : (name, id) ∉ l := fun hmem => h.1 (List.mem_map_of_mem (f := (·.1)) hmem)
      simp [hnot, eq_comm]
    · have hbeq : (name == word) = false := beq_false_of_ne hname
      simp [hbeq, hname, ih h.2]

/-- The names of a scope are those of the symbols that live in it. -/
theorem Arranged.mem_locals_iff (ht : t.Arranged) (hsound : t.Sound) :
    (name, id) ∈ t.locals s ↔ ∃ x, t.symbols[id]? = some x ∧ x.scope = s ∧ x.name = name := by
  rw [← lookup_eq_some_iff_mem (ht.distinct s)]
  constructor
  · intro h
    obtain ⟨x, hx, hname, hscope⟩ := hsound.known s name id h
    exact ⟨x, hx, hscope, hname⟩
  · rintro ⟨x, hx, rfl, rfl⟩
    exact hsound.listed id x hx

/-- Each symbol is listed once, in one scope. -/
theorem Arranged.listed_once (ht : t.Arranged) (hsound : t.Sound) :
    ((List.range t.scopes.length).flatMap fun s => (t.locals s).map (·.2)).Perm
      (List.range t.symbols.length) := by
  have hmem {s : Nat} {entry : String × Nat} (h : entry ∈ t.locals s) :
      ∃ x, t.symbols[entry.2]? = some x ∧ x.scope = s ∧ x.name = entry.1 :=
    (ht.mem_locals_iff hsound).1 h
  refine (List.perm_ext_iff_of_nodup (List.nodup_flatMap.2 ⟨fun s _ => ?_, ?_⟩)
    List.nodup_range).2 fun id => ?_
  · refine List.Nodup.map_on (fun a ha b hb hab => ?_) (ht.distinct s).of_map
    obtain ⟨x, hx, -, hname⟩ := hmem ha
    obtain ⟨y, hy, -, hname'⟩ := hmem hb
    rw [hab, hy] at hx
    cases hx
    exact Prod.ext (hname.symm.trans hname') hab
  · refine List.nodup_range.imp fun {s s'} hne id hs hs' => hne ?_
    obtain ⟨a, ha, rfl⟩ := List.mem_map.1 hs
    obtain ⟨b, hb, hab⟩ := List.mem_map.1 hs'
    obtain ⟨x, hx, rfl, -⟩ := hmem ha
    obtain ⟨y, hy, rfl, -⟩ := hmem hb
    rw [hab, hx] at hy
    cases hy
    rfl
  · rw [List.mem_flatMap, List.mem_range]
    constructor
    · rintro ⟨s, -, hs⟩
      obtain ⟨a, ha, rfl⟩ := List.mem_map.1 hs
      obtain ⟨x, hx, -⟩ := hmem ha
      exact (List.getElem?_eq_some_iff.1 hx).1
    · intro hid
      have hx := List.getElem?_eq_getElem hid
      have hentry := (ht.mem_locals_iff hsound).2 ⟨_, hx, rfl, rfl⟩
      exact ⟨_, List.mem_range.2 (ht.lodged id _ hx).lt_length, List.mem_map_of_mem hentry⟩

/-- A scope lies in one with a smaller number. -/
theorem Sound.around_lt (ht : t.Sound) (h : t.around s = some p) : p < s := by
  have hs : s < t.scopes.length := by
    rw [around] at h
    by_contra hs
    rw [List.getElem?_eq_none (Nat.le_of_not_lt hs)] at h
    cases h
  cases s with
  | zero =>
    rw [ht.outermost] at h
    cases h
  | succ i =>
    obtain ⟨q, hq, haround⟩ := ht.inside i hs
    rw [haround] at h
    cases h
    exact Nat.lt_succ_of_le hq

/-- To look a name up is to go from scope to scope.  The test by which the search ends in any
tree is always passed. -/
theorem Sound.lookup_around (ht : t.Sound) (s : Nat) (name : String) :
    t.lookup s name = ((t.locals s).lookup name).or ((t.around s).bind (t.lookup · name)) := by
  rw [lookup_eq]
  refine congrArg _ (Option.bind_congr fun p hp => ?_)
  rw [if_pos (ht.around_lt hp)]

end ScopeTree

end ScriptOutline
