/-
The scopes of a script are its blocks and functions.

`Node.nests` reads off from nodes which scopes they open and how those lie in each other.
`ScopeTree.unfold` reads the same off from a tree of scopes, by its lists of children.  For the
scopes of a script the two agree, so every scope is met once when the outline is written.
-/
import ScriptOutline.Proofs.Arena

namespace ScriptOutline

open Node

/-- A scope with its number, and the scopes in it. -/
inductive ScopeNest where
  | mk (number : Nat) (kind : ScopeKind) (inner : List ScopeNest)

namespace ScopeNest

mutual
/-- The numbers of a scope and those in it, each with its depth and before those in it. -/
def entries (depth : Nat) : ScopeNest → List (Nat × Nat)
  | mk number _ inner => (depth, number) :: entriesAll (depth + 1) inner

def entriesAll (depth : Nat) : List ScopeNest → List (Nat × Nat)
  | [] => []
  | nest :: nests => entries depth nest ++ entriesAll depth nests
end

theorem entriesAll_append (depth : Nat) (ms ns : List ScopeNest) :
    entriesAll depth (ms ++ ns) = entriesAll depth ms ++ entriesAll depth ns := by
  induction ms with
  | nil => rfl
  | cons m ms ih => rw [List.cons_append, entriesAll, entriesAll, ih, List.append_assoc]

theorem entriesAll_flatMap {α : Type} (depth : Nat) (f : α → List ScopeNest) (l : List α) :
    entriesAll depth (l.flatMap f) = l.flatMap fun a => entriesAll depth (f a) := by
  induction l with
  | nil => rfl
  | cons a l ih => rw [List.flatMap_cons, List.flatMap_cons, entriesAll_append, ih]

theorem entriesAll_singleton (depth : Nat) (nest : ScopeNest) :
    entriesAll depth [nest] = entries depth nest := List.append_nil _

end ScopeNest

namespace Node

def scopesIn (n : Node) : Nat := (preorder n).countP (·.opensScope)

def scopesInAll (ns : List Node) : Nat := (preorderAll ns).countP (·.opensScope)

mutual
/-- The scopes that a node opens directly in the scope that it stands in, numbered from `next`
in the order in which they are opened. -/
def nests (next : Nat) : Node → List ScopeNest
  | block _ body => [.mk next .block (nestsAll (next + 1) body)]
  | function _ head body => [.mk next (.function head.name.text) (nestsAll (next + 1) body)]
  | immediate _ head body arguments =>
    let inner := next + scopesInAll arguments
    nestsAll next arguments ++ [.mk inner (.function head.name.text) (nestsAll (inner + 1) body)]
  | assignment _ _ _ value | returnValue _ value | instantiation _ value => nests next value
  | call _ _ arguments => nestsAll next arguments
  | invocation _ _ arguments chain _ =>
    nestsAll next arguments ++ nestsAll (next + scopesInAll arguments) chain
  | array _ elements => nestsAll next elements
  | declaration .. | returnNothing .. | reference .. | object .. | primitive .. | expression ..
  | skipped .. => []

def nestsAll (next : Nat) : List Node → List ScopeNest
  | [] => []
  | n :: ns => nests next n ++ nestsAll (next + scopesIn n) ns
end

end Node

namespace Node

variable {scope home next : Nat}

theorem countP_placed (scope home next : Nat) (n : Node) :
    (placed scope home next n).countP (·.node.opensScope) = scopesIn n := by
  rw [scopesIn, ← (placed_perm_preorder scope home next n).countP_eq, List.countP_map]
  rfl

theorem countP_placedAll (scope home next : Nat) (ns : List Node) :
    (placedAll scope home next ns).countP (·.node.opensScope) = scopesInAll ns := by
  rw [scopesInAll, ← (placedAll_perm_preorderAll scope home next ns).countP_eq, List.countP_map]
  rfl

theorem scopesInAll_append (ms ns : List Node) :
    scopesInAll (ms ++ ns) = scopesInAll ms + scopesInAll ns := by
  rw [scopesInAll, preorderAll_append, List.countP_append]
  rfl

theorem scopesInAll_cons (n : Node) (ns : List Node) :
    scopesInAll (n :: ns) = scopesIn n + scopesInAll ns := List.countP_append

/-- A node that opens no scope itself opens those of the nodes in it. -/
theorem scopesIn_of_closed {n : Node} {ns : List Node} (h : preorder n = n :: preorderAll ns)
    (hopens : n.opensScope = false) : scopesIn n = scopesInAll ns := by
  rw [scopesIn, h, List.countP_cons, hopens]
  rfl

theorem scopesIn_of_opens {n : Node} {ns : List Node} (h : preorder n = n :: preorderAll ns)
    (hopens : n.opensScope = true) : scopesIn n = 1 + scopesInAll ns := by
  rw [scopesIn, h, List.countP_cons, hopens, Nat.add_comm]
  rfl

theorem scopesIn_block (c : List Comment) (body : List Node) :
    scopesIn (block c body) = 1 + scopesInAll body := scopesIn_of_opens rfl rfl

theorem scopesIn_function (c : List Comment) (head : FunctionHead) (body : List Node) :
    scopesIn (function c head body) = 1 + scopesInAll body := scopesIn_of_opens rfl rfl

theorem scopesIn_invocation (c : List Comment) (path : Option SymbolPath)
    (arguments chain : List Node) (tail : Option (List TokenTree)) :
    scopesIn (invocation c path arguments chain tail) =
      scopesInAll arguments + scopesInAll chain := by
  rw [← scopesInAll_append]
  exact scopesIn_of_closed (by rw [preorderAll_append]; rfl) rfl

theorem scopesIn_immediate (c : List Comment) (head : FunctionHead) (body arguments : List Node) :
    scopesIn (immediate c head body arguments) =
      scopesInAll arguments + (1 + scopesInAll body) := by
  have h := scopesIn_of_opens (n := immediate c head body arguments)
    (by rw [preorderAll_append body arguments]; rfl) rfl
  rw [h, scopesInAll_append]
  omega

theorem numbers_opened {depth c k : Nat} {inner : List ScopeNest} (kind : ScopeKind)
    (h : (ScopeNest.entriesAll (depth + 1) inner).map (·.2) = List.range' (c + 1) k) :
    (ScopeNest.entriesAll depth [.mk c kind inner]).map (·.2) = List.range' c (1 + k) := by
  rw [ScopeNest.entriesAll_singleton, ScopeNest.entries, List.map_cons, h, Nat.add_comm 1,
    List.range'_succ]

mutual
/-- Scopes are numbered in the order in which they are met. -/
theorem numbers_nests (depth next : Nat) (n : Node) :
    (ScopeNest.entriesAll depth (nests next n)).map (·.2) = List.range' next (scopesIn n) := by
  cases n with
  | block _ body =>
    rw [scopesIn_block]
    exact numbers_opened _ (numbers_nestsAll (depth + 1) (next + 1) body)
  | function _ _ body =>
    rw [scopesIn_function]
    exact numbers_opened _ (numbers_nestsAll (depth + 1) (next + 1) body)
  | immediate c head body arguments =>
    have hbody := numbers_nestsAll (depth + 1) (next + scopesInAll arguments + 1) body
    rw [nests, ScopeNest.entriesAll_append, List.map_append, numbers_nestsAll depth next arguments,
      numbers_opened _ hbody, scopesIn_immediate, List.range'_append_1]
  | assignment _ _ _ value | returnValue _ value | instantiation _ value =>
    exact numbers_nests depth next value
  | call _ _ arguments => exact numbers_nestsAll depth next arguments
  | array _ elements => exact numbers_nestsAll depth next elements
  | invocation _ _ arguments chain _ =>
    rw [nests, ScopeNest.entriesAll_append, List.map_append, numbers_nestsAll depth next arguments,
      numbers_nestsAll depth _ chain, scopesIn_invocation, List.range'_append_1]
  | declaration | returnNothing | reference | object | primitive | expression | skipped => rfl

theorem numbers_nestsAll (depth next : Nat) (ns : List Node) :
    (ScopeNest.entriesAll depth (nestsAll next ns)).map (·.2) =
      List.range' next (scopesInAll ns) := by
  cases ns with
  | nil => rfl
  | cons n ns =>
    rw [nestsAll, ScopeNest.entriesAll_append, List.map_append, numbers_nests depth next n,
      numbers_nestsAll depth _ ns, scopesInAll_cons, List.range'_append_1]
end

end Node

/-! ## Unfolding -/

namespace ScopeTree

/-- A scope and those in it, found by the lists of children.  `fuel` bounds their depth. -/
def unfold (t : ScopeTree) : Nat → Nat → List ScopeNest
  | 0, _ => []
  | fuel + 1, s =>
    match t.scopes[s]? with
    | none => []
    | some x => [.mk s x.kind (x.children.flatMap (t.unfold fuel))]

def childrenIn (t : ScopeTree) (s lo k : Nat) : List Nat :=
  (List.range' lo k).filter fun i => t.around i == some s

/-- The `k` scopes from number `lo` on hold no others. -/
def Seals (t : ScopeTree) (lo k : Nat) : Prop :=
  ∀ i p, t.around i = some p → lo ≤ p → p < lo + k → i < lo + k

/-- The scopes that the nodes open are in the tree. -/
def Shows (t : ScopeTree) (os : List Occurrence) : Prop :=
  ∀ o ∈ os, o.node.opensScope = true → t.frames[o.opens]? = o.frame?

variable {t : ScopeTree} {s p c lo a b fuel : Nat} {kind : ScopeKind} {parent : Option Nat}
  {o : Occurrence} {os us : List Occurrence}

theorem unfold_succ (h : t.frames[s]? = some (kind, parent)) (fuel : Nat) :
    t.unfold (fuel + 1) s = [.mk s kind ((t.children s).flatMap (t.unfold fuel))] := by
  rw [frames, List.getElem?_map, Option.map_eq_some_iff] at h
  obtain ⟨x, hx, hframe⟩ := h
  cases hframe
  rw [unfold, children, hx]
  rfl

theorem childrenIn_add (t : ScopeTree) (s lo a b : Nat) :
    t.childrenIn s lo (a + b) = t.childrenIn s lo a ++ t.childrenIn s (lo + a) b := by
  rw [childrenIn, ← List.range'_append_1, List.filter_append]
  rfl

theorem childrenIn_eq_nil (h : ∀ i, lo ≤ i → i < lo + a → t.around i ≠ some s) :
    t.childrenIn s lo a = [] := by
  refine List.filter_eq_nil_iff.2 fun i hi => ?_
  obtain ⟨hle, hlt⟩ := List.mem_range'_1.1 hi
  simpa using h i hle hlt

theorem Seals.right (h : t.Seals lo (a + b)) : t.Seals (lo + a) b := by
  intro i p hi hle hlt
  have := h i p hi (by omega) (by omega)
  omega

theorem lt_length_of_around (h : t.around s = some p) : s < t.scopes.length := by
  rw [around] at h
  by_contra hs
  rw [List.getElem?_eq_none (Nat.le_of_not_lt hs)] at h
  cases h

theorem Shows.append (h : t.Shows (os ++ us)) : t.Shows os ∧ t.Shows us :=
  ⟨fun o ho => h o (List.mem_append_left us ho), fun o ho => h o (List.mem_append_right os ho)⟩

theorem Shows.tail (h : t.Shows (o :: os)) : t.Shows os :=
  fun u hu => h u (List.mem_cons_of_mem o hu)

/-- Each of the scopes that nodes open lies in the scope in which its node stands. -/
theorem Shows.around (hshows : t.Shows os) {next : Nat} (hos : InOrder next os) {i : Nat}
    (hle : next ≤ i) (hlt : i < next + os.countP (·.node.opensScope)) :
    ∃ o ∈ os, t.around i = some o.scope := by
  induction os generalizing next with
  | nil =>
    rw [List.countP_nil] at hlt
    omega
  | cons o os ih =>
    obtain ⟨-, -, hopens, hrest⟩ := hos
    rw [List.countP_cons] at hlt
    by_cases hscope : o.node.opensScope = true
    · rw [if_pos hscope] at hlt hrest
      rcases Nat.lt_or_ge next i with hless | hge
      · obtain ⟨u, hu, haround⟩ := ih hshows.tail hrest (by omega) (by omega)
        exact ⟨u, List.mem_cons_of_mem o hu, haround⟩
      · obtain rfl : i = next := by omega
        refine ⟨o, List.mem_cons_self, ?_⟩
        have hframe := hshows o List.mem_cons_self hscope
        obtain ⟨kind, hkind⟩ := Option.isSome_iff_exists.1 hscope
        rw [hopens hscope, Occurrence.frame?, hkind] at hframe
        rw [around_eq, hframe]
        rfl
    · rw [if_neg hscope] at hlt hrest
      obtain ⟨u, hu, haround⟩ := ih hshows.tail hrest hle hlt
      exact ⟨u, List.mem_cons_of_mem o hu, haround⟩

/-- The children of a scope that the scopes behind it belong to are among these. -/
theorem Arranged.children_eq_childrenIn (ht : t.Arranged) (hsound : t.Sound)
    (hseals : t.Seals c (1 + b)) (hlength : c + 1 + b ≤ t.scopes.length) :
    t.children c = t.childrenIn c (c + 1) b := by
  obtain ⟨rest, hrest⟩ := Nat.exists_eq_add_of_le hlength
  have hchildren : t.children c = t.childrenIn c 0 (c + 1 + b + rest) := by
    rw [ht.children, childrenIn, hrest, List.range_eq_range']
  have hbefore : t.childrenIn c 0 (c + 1) = [] := by
    refine childrenIn_eq_nil fun i _ hi hc => ?_
    have hless := hsound.around_lt hc
    omega
  have hbehind : t.childrenIn c (0 + (c + 1 + b)) rest = [] := by
    refine childrenIn_eq_nil fun i hi _ hc => ?_
    have hless := hseals i c hc (Nat.le_refl c) (by omega)
    omega
  rw [hchildren, childrenIn_add, hbehind, List.append_nil, childrenIn_add, hbefore, Nat.zero_add]
  rfl

end ScopeTree

namespace Node

/-- The nodes stand in this scope or in one that has number `next` or a greater one. -/
def StandIn (scope next : Nat) (os : List Occurrence) : Prop :=
  ∀ o ∈ os, o.scope = scope ∨ next ≤ o.scope

section StandIn

variable {scope home next next' : Nat} {n : Node} {os us : List Occurrence}

theorem StandIn.append (h : StandIn scope next os) (h' : StandIn scope next us) :
    StandIn scope next (os ++ us) := List.forall_mem_append.2 ⟨h, h'⟩

theorem StandIn.cons {o : Occurrence} (ho : o.scope = scope) (h : StandIn scope next os) :
    StandIn scope next (o :: os) := List.forall_mem_cons.2 ⟨.inl ho, h⟩

theorem StandIn.behind (h : StandIn scope next' os) (hle : next ≤ next') :
    StandIn scope next os := fun o ho => (h o ho).imp_right (Nat.le_trans hle)

/-- What stands in a scope that is opened on the way stands behind where it was opened. -/
theorem StandIn.within {inner : Nat} (h : StandIn inner next' os) (hinner : next ≤ inner)
    (hle : next ≤ next') : StandIn scope next os := by
  intro o ho
  rcases h o ho with hscope | hge
  · exact .inr (hscope ▸ hinner)
  · exact .inr (Nat.le_trans hle hge)

mutual
theorem standIn_placed (scope home next : Nat) (n : Node) :
    StandIn scope next (placed scope home next n) := by
  have hnone : StandIn scope next [] := fun _ h => nomatch h
  cases n with
  | block _ body =>
    have hbody := standIn_placedAll next home (next + 1) body
    exact .cons rfl (hbody.within (Nat.le_refl next) (Nat.le_succ next))
  | function _ _ body =>
    have hbody := standIn_placedAll next next (next + 1) body
    exact .cons rfl (hbody.within (Nat.le_refl next) (Nat.le_succ next))
  | immediate _ _ body arguments =>
    refine (standIn_placedAll scope home next arguments).append (.cons rfl ?_)
    exact (standIn_placedAll _ _ _ body).within (Nat.le_add_right ..) (by omega)
  | assignment _ _ _ value | returnValue _ value | instantiation _ value =>
    exact .cons rfl (standIn_placed scope home next value)
  | call _ _ arguments => exact .cons rfl (standIn_placedAll scope home next arguments)
  | array _ elements => exact .cons rfl (standIn_placedAll scope home next elements)
  | invocation _ _ arguments chain _ =>
    refine .cons rfl ((standIn_placedAll scope home next arguments).append ?_)
    exact (standIn_placedAll _ _ _ chain).behind (Nat.le_add_right ..)
  | declaration | returnNothing | reference | object | primitive | expression | skipped =>
    exact .cons rfl hnone

theorem standIn_placedAll (scope home next : Nat) (ns : List Node) :
    StandIn scope next (placedAll scope home next ns) := by
  cases ns with
  | nil => exact fun _ h => nomatch h
  | cons n ns =>
    refine (standIn_placed scope home next n).append ?_
    exact (standIn_placedAll _ _ _ ns).behind (Nat.le_add_right ..)
end

end StandIn

open ScopeTree

variable {t : ScopeTree}

/-- Scopes hold none of those that the nodes behind them open, if these stand elsewhere. -/
theorem Seals.before {scope next a : Nat} {us : List Occurrence}
    (h : t.Seals next (a + us.countP (·.node.opensScope))) (hs : scope < next)
    (hshows : t.Shows us) (hus : InOrder (next + a) us) (hstand : StandIn scope (next + a) us) :
    t.Seals next a := by
  intro i p hi hle hlt
  have hless := h i p hi hle (by omega)
  by_contra hge
  obtain ⟨o, ho, haround⟩ := hshows.around hus (Nat.le_of_not_lt hge) (by omega)
  rw [hi, Option.some.injEq] at haround
  have hstands := hstand o ho
  omega

/-- What a scope opened at `c` unfolds to, if those in it unfold to `inner`. -/
theorem unfold_opened (ht : t.Arranged) (hsound : t.Sound) {scope home c fuel : Nat}
    {kind : ScopeKind} {body : List Node} {inner : List ScopeNest} (hs : scope < c)
    (hh : home < c + 1) (hframe : t.frames[c]? = some (kind, some scope))
    (hshows : t.Shows (placedAll c home (c + 1) body)) (hseals : t.Seals c (1 + scopesInAll body))
    (hfuel : 1 + scopesInAll body ≤ fuel)
    (hinner : ∀ fuel, scopesInAll body ≤ fuel →
      (t.childrenIn c (c + 1) (scopesInAll body)).flatMap (t.unfold fuel) = inner) :
    (t.childrenIn scope c (1 + scopesInAll body)).flatMap (t.unfold fuel) =
      [.mk c kind inner] := by
  have hos := inOrder_placedAll (Nat.lt_succ_self c) hh body
  have hcount := countP_placedAll c home (c + 1) body
  have haround : t.around c = some scope := by
    rw [around_eq, hframe]
    rfl
  -- of the scopes from `c` on, those in it do not lie in the scope around it
  have honly : t.childrenIn scope c (1 + scopesInAll body) = [c] := by
    have hrest : t.childrenIn scope (c + 1) (scopesInAll body) = [] := by
      refine childrenIn_eq_nil fun i hle hlt hi => ?_
      obtain ⟨o, ho, hscope⟩ := hshows.around hos hle (hcount ▸ hlt)
      rw [hi, Option.some.injEq] at hscope
      have hstands := standIn_placedAll c home (c + 1) body o ho
      omega
    rw [childrenIn_add, hrest, List.append_nil, childrenIn, List.range'_one, List.filter_cons,
      haround]
    simp
  have hlength : c + 1 + scopesInAll body ≤ t.scopes.length := by
    rcases Nat.eq_zero_or_pos (scopesInAll body) with hzero | hpos
    · have := lt_length_of_around haround
      omega
    · obtain ⟨o, -, hlast⟩ := hshows.around hos
        (show c + 1 ≤ c + scopesInAll body by omega) (by rw [hcount]; omega)
      have := lt_length_of_around hlast
      omega
  cases fuel with
  | zero => omega
  | succ fuel =>
    rw [honly, List.flatMap_singleton, unfold_succ hframe,
      ht.children_eq_childrenIn hsound hseals hlength, hinner fuel (by omega)]

mutual
/-- The scopes of a node unfold to what the node says of them. -/
theorem unfold_nests (ht : t.Arranged) (hsound : t.Sound) {scope home next fuel : Nat}
    (hs : scope < next) (hh : home < next) (n : Node) (hshows : t.Shows (placed scope home next n))
    (hseals : t.Seals next (scopesIn n)) (hfuel : scopesIn n ≤ fuel) :
    (t.childrenIn scope next (scopesIn n)).flatMap (t.unfold fuel) = nests next n := by
  cases n with
  | block c body =>
    rw [scopesIn_block] at hseals hfuel ⊢
    refine unfold_opened ht hsound hs (Nat.lt_succ_of_lt hh)
      (hshows _ List.mem_cons_self rfl) hshows.tail hseals hfuel fun fuel hfuel => ?_
    exact unfold_nestsAll ht hsound (Nat.lt_succ_self _) (Nat.lt_succ_of_lt hh) body hshows.tail
      hseals.right hfuel
  | function c head body =>
    rw [scopesIn_function] at hseals hfuel ⊢
    refine unfold_opened ht hsound hs (Nat.lt_succ_self _)
      (hshows _ List.mem_cons_self rfl) hshows.tail hseals hfuel fun fuel hfuel => ?_
    exact unfold_nestsAll ht hsound (Nat.lt_succ_self _) (Nat.lt_succ_self _) body hshows.tail
      hseals.right hfuel
  | immediate c head body arguments =>
    rw [scopesIn_immediate] at hseals hfuel ⊢
    simp only [placed, countP_placedAll] at hshows
    obtain ⟨hgiven, hopened⟩ := hshows.append
    have hinner : scope < next + scopesInAll arguments := Nat.lt_add_right _ hs
    have hcount := countP_placedAll (next + scopesInAll arguments) (next + scopesInAll arguments)
      (next + scopesInAll arguments + 1) body
    have hgivenSeals : t.Seals next (scopesInAll arguments) := by
      refine Seals.before ?_ hs hopened ⟨hinner, Nat.lt_add_right _ hh, fun _ => rfl, ?_⟩
        (.cons rfl ((standIn_placedAll _ _ _ body).within (Nat.le_refl _) (Nat.le_succ _)))
      · rw [List.countP_cons, hcount, Nat.add_comm (scopesInAll body)]
        exact hseals
      · exact inOrder_placedAll (Nat.lt_succ_self _) (Nat.lt_succ_self _) body
    rw [childrenIn_add, List.flatMap_append, nests,
      unfold_nestsAll ht hsound hs hh arguments hgiven hgivenSeals (by omega),
      unfold_opened ht hsound hinner (Nat.lt_succ_self _) (hopened _ List.mem_cons_self rfl)
        hopened.tail hseals.right (by omega) fun fuel hfuel =>
        unfold_nestsAll ht hsound (Nat.lt_succ_self _) (Nat.lt_succ_self _) body hopened.tail
          hseals.right.right hfuel]
  | assignment _ _ _ value | returnValue _ value | instantiation _ value =>
    exact unfold_nests ht hsound hs hh value hshows.tail hseals hfuel
  | call _ _ arguments => exact unfold_nestsAll ht hsound hs hh arguments hshows.tail hseals hfuel
  | array _ elements => exact unfold_nestsAll ht hsound hs hh elements hshows.tail hseals hfuel
  | invocation c path arguments chain tail =>
    rw [scopesIn_invocation] at hseals hfuel ⊢
    simp only [placed, countP_placedAll] at hshows
    obtain ⟨hgiven, hchain⟩ := hshows.tail.append
    have hs' : scope < next + scopesInAll arguments := Nat.lt_add_right _ hs
    have hh' : home < next + scopesInAll arguments := Nat.lt_add_right _ hh
    have hgivenSeals : t.Seals next (scopesInAll arguments) := by
      refine Seals.before ?_ hs hchain (inOrder_placedAll hs' hh' chain)
        (standIn_placedAll _ _ _ chain)
      rw [countP_placedAll]
      exact hseals
    rw [childrenIn_add, List.flatMap_append, nests,
      unfold_nestsAll ht hsound hs hh arguments hgiven hgivenSeals (by omega),
      unfold_nestsAll ht hsound hs' hh' chain hchain hseals.right (by omega)]
  | declaration | returnNothing | reference | object | primitive | expression | skipped => rfl

theorem unfold_nestsAll (ht : t.Arranged) (hsound : t.Sound) {scope home next fuel : Nat}
    (hs : scope < next) (hh : home < next) (ns : List Node)
    (hshows : t.Shows (placedAll scope home next ns)) (hseals : t.Seals next (scopesInAll ns))
    (hfuel : scopesInAll ns ≤ fuel) :
    (t.childrenIn scope next (scopesInAll ns)).flatMap (t.unfold fuel) = nestsAll next ns := by
  cases ns with
  | nil => rfl
  | cons n ns =>
    rw [scopesInAll_cons] at hseals hfuel ⊢
    rw [placedAll, countP_placed] at hshows
    obtain ⟨hfirst, hrest⟩ := hshows.append
    have hs' : scope < next + scopesIn n := Nat.lt_add_right _ hs
    have hh' : home < next + scopesIn n := Nat.lt_add_right _ hh
    have hfirstSeals : t.Seals next (scopesIn n) := by
      refine Seals.before ?_ hs hrest (inOrder_placedAll hs' hh' ns)
        (standIn_placedAll _ _ _ ns)
      rw [countP_placedAll]
      exact hseals
    rw [childrenIn_add, List.flatMap_append, nestsAll,
      unfold_nests ht hsound hs hh n hfirst hfirstSeals (by omega),
      unfold_nestsAll ht hsound hs' hh' ns hrest hseals.right (by omega)]
end

theorem length_scopes (names : Names) (body : List Node) :
    (scopes names body).scopes.length = 1 + scopesInAll body := by
  rw [scopes_eq, length_meetAll, length_outermost, countP_placedAll]

/-- The scopes of a script unfold to its blocks and functions. -/
theorem unfold_scopes (names : Names) (body : List Node) :
    (scopes names body).unfold (scopes names body).scopes.length 0 =
      [.mk 0 .program (nestsAll 1 body)] := by
  have ht := arranged_scopes names body
  have hsound := sound_scopes names body
  have hlength := length_scopes names body
  have hinside {i p : Nat} (hp : (scopes names body).around i = some p) :
      i < 1 + scopesInAll body := hlength ▸ lt_length_of_around hp
  have hinner := unfold_nestsAll ht hsound Nat.one_pos Nat.one_pos body
    (frames_scopes_opens names body) (fun i p hp _ _ => hinside hp) (Nat.le_refl _)
  have hchildren := ht.children_eq_childrenIn hsound (c := 0) (b := scopesInAll body)
    (fun i p hp _ _ => by rw [Nat.zero_add]; exact hinside hp) (by omega)
  rw [hlength, Nat.add_comm, unfold_succ ht.program, hchildren, hinner]

end Node

/-! ## The outline -/

namespace ScopeTree

variable {t : ScopeTree}

/-- The lines of a scope, given by its depth and its number, without those of the scopes in
it. -/
def ownLines (t : ScopeTree) (entry : Nat × Nat) : List (Nat × String) :=
  match t.scopes[entry.2]? with
  | none => []
  | some x =>
    (entry.1, scopeLine x.kind) :: (t.symbolsIn entry.2).map fun y => (entry.1 + 1, symbolLine y)

theorem outlineLines_eq (t : ScopeTree) (fuel depth s : Nat) :
    t.outlineLines fuel depth s =
      (ScopeNest.entriesAll depth (t.unfold fuel s)).flatMap t.ownLines := by
  induction fuel generalizing depth s with
  | zero => rfl
  | succ fuel ih =>
    rw [outlineLines, unfold]
    cases hscope : t.scopes[s]? with
    | none => rfl
    | some x =>
      have hinner : x.children.flatMap (t.outlineLines fuel (depth + 1)) =
          (ScopeNest.entriesAll (depth + 1) (x.children.flatMap (t.unfold fuel))).flatMap
            t.ownLines := by
        rw [ScopeNest.entriesAll_flatMap, List.flatMap_assoc]
        exact List.flatMap_congr fun c _ => ih (depth + 1) c
      have hown : t.ownLines (depth, s) = (depth, scopeLine x.kind) ::
          (t.symbolsIn s).map fun y => (depth + 1, symbolLine y) := by
        simp only [ownLines, hscope]
      rw [ScopeNest.entriesAll_singleton, ScopeNest.entries, List.flatMap_cons, hown, ← hinner]

theorem filterMap_range_getElem? {α : Type} (l : List α) (k : Nat) :
    (List.range k).filterMap (l[·]?) = l.take k := by
  induction k with
  | zero => rfl
  | succ k ih =>
    rw [List.range_succ, List.filterMap_append, ih, List.take_add_one]
    cases h : l[k]? <;> simp [h]

/-- Each symbol is among those of one scope, once. -/
theorem Arranged.symbolsIn_perm (ht : t.Arranged) (hsound : t.Sound) :
    ((List.range t.scopes.length).flatMap t.symbolsIn).Perm t.symbols := by
  have hlisted := (ht.listed_once hsound).filterMap (t.symbols[·]?)
  rw [filterMap_range_getElem?, List.take_length, List.filterMap_flatMap] at hlisted
  have hsame : t.symbolsIn = fun s => ((t.locals s).map (·.2)).filterMap (t.symbols[·]?) :=
    funext fun s => (List.filterMap_map ..).symm
  rw [hsame]
  exact hlisted

/-- The tree holds the scopes of the nodes: what refers to what, and what is found and
printed. -/
structure Represents (t : ScopeTree) (body : List Node) : Prop where
  scopeIds : t.scopes.map (·.id) = List.range t.scopes.length
  symbolIds : t.symbols.map (·.id) = List.range t.symbols.length
  /-- The first scope is that of the script. -/
  program : t.frames[0]? = some (.program, none)
  /-- Every other one is of another kind and lies in one with a smaller number. -/
  inside : ∀ (s : Nat) (frame : ScopeKind × Option Nat), t.frames[s + 1]? = some frame →
    frame.1 ≠ .program ∧ ∃ p ≤ s, frame.2 = some p
  /-- The children of a scope are the scopes that lie in it, each once and in order. -/
  children : ∀ p, t.children p =
    (List.range t.scopes.length).filter fun s => t.around s == some p
  /-- Each function and each block of the nodes has one scope. -/
  opened : (t.frames.tail.map (·.1)).Perm ((preorderAll body).filterMap scopeKind?)
  /-- Scopes lie in each other as the functions and blocks do. -/
  nested : t.unfold t.scopes.length 0 = [.mk 0 .program (nestsAll 1 body)]
  /-- A scope lists the symbols that live in it, each under its own name. -/
  listed : ∀ (s : Nat) (name : String) (id : Nat), (name, id) ∈ t.locals s ↔
    ∃ x, t.symbols[id]? = some x ∧ x.scope = s ∧ x.name = name
  distinct : ∀ s, ((t.locals s).map (·.1)).Nodup
  hosted : ∀ x ∈ t.symbols, t.Hosts x.scope x.kind
  global : ∀ x ∈ t.symbols, x.kind = .global → x.scope = 0
  /-- A name is looked up from scope to scope outwards. -/
  lookup : ∀ (s : Nat) (name : String), t.lookup s name =
    ((t.locals s).lookup name).or ((t.around s).bind (t.lookup · name))
  /-- The outline has the lines of one scope after another. -/
  outline : t.outlineLines t.scopes.length 0 0 =
    (ScopeNest.entries 0 (.mk 0 .program (nestsAll 1 body))).flatMap t.ownLines
  /-- It has those of each scope once, in the order of their numbers. -/
  scopesOnce : (ScopeNest.entries 0 (.mk 0 .program (nestsAll 1 body))).map (·.2) =
    List.range t.scopes.length
  /-- With those of each scope it has that of each symbol once. -/
  symbolsOnce : ((List.range t.scopes.length).flatMap t.symbolsIn).Perm t.symbols

end ScopeTree

namespace Node

open ScopeTree

/-- Only the first scope is that of a script. -/
theorem frames_scopes_inside (names : Names) (body : List Node) {s : Nat}
    {frame : ScopeKind × Option Nat} (h : (scopes names body).frames[s + 1]? = some frame) :
    frame.1 ≠ .program ∧ ∃ p ≤ s, frame.2 = some p := by
  constructor
  · rw [frames_scopes, List.getElem?_cons_succ] at h
    obtain ⟨o, -, hframe⟩ := List.mem_filterMap.1 (List.mem_of_getElem? h)
    obtain ⟨kind, hkind, rfl⟩ := Option.map_eq_some_iff.1 hframe
    rintro rfl
    cases hnode : o.node <;> simp [hnode, scopeKind?] at hkind
  · have hs : s + 1 < (scopes names body).scopes.length := by
      rw [← length_frames]
      exact (List.getElem?_eq_some_iff.1 h).1
    obtain ⟨p, hp, haround⟩ := (sound_scopes names body).inside s hs
    rw [around_eq, h] at haround
    exact ⟨p, hp, haround⟩

theorem opened_scopes (names : Names) (body : List Node) :
    ((scopes names body).frames.tail.map (·.1)).Perm ((preorderAll body).filterMap scopeKind?) := by
  have hkinds : ((placedAll 0 0 1 body).filterMap (·.frame?)).map (·.1) =
      ((placedAll 0 0 1 body).map (·.node)).filterMap scopeKind? := by
    rw [List.map_filterMap, List.filterMap_map]
    refine List.filterMap_congr fun o _ => ?_
    rw [Occurrence.frame?, Option.map_map]
    exact Option.map_id'
  rw [frames_scopes, List.tail_cons, hkinds]
  exact (placedAll_perm_preorderAll 0 0 1 body).filterMap _

/-- The scopes of every script are well arranged. -/
theorem scopes_represent (names : Names) (body : List Node) :
    (scopes names body).Represents body := by
  have ht := arranged_scopes names body
  have hsound := sound_scopes names body
  have hunfold := unfold_scopes names body
  refine ⟨ht.scopeIds, ht.symbolIds, ht.program, fun s frame => frames_scopes_inside names body,
    ht.children, opened_scopes names body, hunfold, fun _ _ _ => ht.mem_locals_iff hsound,
    ht.distinct, ?_, ?_, hsound.lookup_around, ?_, ?_, ht.symbolsIn_perm hsound⟩
  · intro x hx
    obtain ⟨id, hid⟩ := List.mem_iff_getElem?.1 hx
    exact ht.lodged id x hid
  · intro x hx hglobal
    obtain ⟨id, hid⟩ := List.mem_iff_getElem?.1 hx
    have hfounded := hsound.founded id x hid
    rw [ScriptSymbol.Founded, if_pos hglobal] at hfounded
    exact hfounded.2.1
  · rw [outlineLines_eq, hunfold, ScopeNest.entriesAll_singleton]
  · rw [← ScopeNest.entriesAll_singleton, numbers_opened _ (numbers_nestsAll 1 1 body),
      length_scopes, List.range_eq_range']

end Node

end ScriptOutline
