/-
How often names are declared.

A parameter belongs to the scope of its function, a name declared with `var` to that of the
innermost function or of the script, and one declared with `let` to the scope that it stands
in.  Declaring happens earlier, when a scope is opened: the names of its own are gathered from
the nodes in it.  Both ways of looking at it find the same declarations, `declares_placed`,
so a symbol has been counted as often as its name is declared.
-/
import Mathlib.Algebra.Ring.Nat
import ScriptOutline.Proofs.Occurrence
import ScriptOutline.Proofs.Numbering
import ScriptOutline.Proofs.Shape

namespace ScriptOutline

namespace Occurrence

/-- The names that a node declares, each with the scope that it belongs to. -/
def declares (o : Occurrence) : List (Nat × Token) :=
  match o.node with
  | .function _ head _ | .immediate _ head _ _ => head.parameters.map (o.opens, ·)
  | .declaration _ .varWord name => [(o.home, name)]
  | .declaration _ .letWord name => [(o.scope, name)]
  | _ => []

/-- The names that are declared when a node is bound, with the scope that it opens. -/
def enters (o : Occurrence) : List (Nat × Token) := o.node.ownNames.map fun name => (o.opens, name.2)

end Occurrence

namespace Node

def isDeclaration : Node → Bool
  | declaration .. => true
  | _ => false

def head? : Node → Option FunctionHead
  | function _ head _ | immediate _ head _ _ => some head
  | _ => none

/-- The name that a node itself declares with `let`. -/
def letName : Node → List Token
  | declaration _ .letWord name => [name]
  | _ => []

theorem letNames_cons (n : Node) (ns : List Node) : letNames (n :: ns) = n.letName ++ letNames ns := by
  cases n with
  | declaration _ word _ => cases word <;> rfl
  | _ => rfl

theorem Shaped.letName_eq {role : Role} {n : Node} (h : n.Shaped role) (hrole : role ≠ .statement) :
    n.letName = [] := by
  cases n with
  | declaration => exact absurd h.1 hrole
  | _ => rfl

theorem ShapedAll.letNames_eq {role : Role} {ns : List Node} (h : ShapedAll role ns)
    (hrole : role ≠ .statement) : letNames ns = [] := by
  induction ns with
  | nil => rfl
  | cons n ns ih => rw [letNames_cons, h.1.letName_eq hrole, ih h.2, List.append_nil]

/-- The names of a body are gathered for the scope of its function. -/
theorem enters_eq_of_function {o : Occurrence} (head : FunctionHead) (body : List Node)
    (h : o.node.ownNames = head.parameters.map (.parameter, ·) ++ bodyNames body) :
    o.enters = head.parameters.map (o.opens, ·) ++
      (((declaredAll body).map fun e => (o.opens, e.name)) ++ (letNames body).map (o.opens, ·)) := by
  rw [Occurrence.enters, h, bodyNames, List.map_append, List.map_append, List.map_map, List.map_map,
    List.map_map]
  rfl

mutual
/-- What nodes declare is what is declared when they are bound and what belongs to the scopes
around them. -/
theorem declares_placed {role : Role} {n : Node} (h : n.Shaped role) (scope home next : Nat)
    (d : Nat × Token) :
    ((placed scope home next n).flatMap (·.declares)).count d =
      ((placed scope home next n).flatMap (·.enters)).count d +
        ((declared n).map fun e => (home, e.name)).count d + (n.letName.map (scope, ·)).count d := by
  cases n with
  | returnNothing | reference | object | primitive | expression | skipped => rfl
  | declaration c word name => cases word <;> simp [placed, Occurrence.declares, Occurrence.enters,
      ownNames, declared, letName]
  | assignment _ _ _ value =>
    -- a value is no statement, so it declares nothing in the scope around it
    have hvalue := declares_placed h.2.2.2 scope home next d
    rw [h.2.2.2.letName_eq (by decide)] at hvalue
    exact hvalue
  | returnValue _ value | instantiation _ value =>
    have hvalue := declares_placed h.2 scope home next d
    rw [h.2.letName_eq (by decide)] at hvalue
    exact hvalue
  | call _ _ arguments =>
    have harguments := declares_placedAll h.2.2 scope home next d
    rw [ShapedAll.letNames_eq h.2.2 (by decide)] at harguments
    exact harguments
  | array _ elements =>
    have helements := declares_placedAll h.2 scope home next d
    rw [ShapedAll.letNames_eq h.2 (by decide)] at helements
    exact helements
  | invocation c path arguments chain tail =>
    have harguments := declares_placedAll h.2.1 scope home next d
    have hchain := declares_placedAll h.2.2.1 scope home
      (next + (placedAll scope home next arguments).countP (·.node.opensScope)) d
    rw [ShapedAll.letNames_eq h.2.1 (by decide)] at harguments
    rw [ShapedAll.letNames_eq h.2.2.1 (by decide)] at hchain
    have hnode : ({ scope, home, opens := next, node := invocation c path arguments chain tail } :
        Occurrence).declares = [] := rfl
    have hopens : ({ scope, home, opens := next, node := invocation c path arguments chain tail } :
        Occurrence).enters = [] := rfl
    simp only [placed, List.flatMap_cons, List.flatMap_append, List.count_append, declared,
      List.map_append, hnode, hopens, letName, List.map_nil, List.count_nil] at harguments hchain ⊢
    omega
  | block c body =>
    have hbody := declares_placedAll h.2 next home (next + 1) d
    have hnode : ({ scope, home, opens := next, node := block c body } :
        Occurrence).declares = [] := rfl
    have hopens : ({ scope, home, opens := next, node := block c body } :
        Occurrence).enters = (letNames body).map (next, ·) := List.map_map
    simp only [placed, List.flatMap_cons, List.count_append, declared, hnode, hopens, letName,
      List.map_nil, List.count_nil]
    omega
  | function c head body =>
    have hbody := declares_placedAll h.2.2 next next (next + 1) d
    have hnode : ({ scope, home, opens := next, node := function c head body } :
        Occurrence).declares = head.parameters.map (next, ·) := rfl
    have hopens := enters_eq_of_function
      (o := { scope, home, opens := next, node := function c head body }) head body rfl
    simp only [placed, List.flatMap_cons, List.count_append, declared, hnode, hopens, letName,
      List.map_nil, List.count_nil]
    omega
  | immediate c head body arguments =>
    have harguments := declares_placedAll h.2.2.2 scope home next d
    rw [ShapedAll.letNames_eq h.2.2.2 (by decide)] at harguments
    simp only [placed, List.flatMap_cons, List.flatMap_append, List.count_append, declared, letName,
      List.map_nil, List.count_nil] at harguments ⊢
    generalize next + (placedAll scope home next arguments).countP (·.node.opensScope) = inner
    have hbody := declares_placedAll h.2.2.1 inner inner (inner + 1) d
    have hnode : ({ scope, home, opens := inner, node := immediate c head body arguments } :
        Occurrence).declares = head.parameters.map (inner, ·) := rfl
    have hopens := enters_eq_of_function
      (o := { scope, home, opens := inner, node := immediate c head body arguments }) head body rfl
    simp only [hnode, hopens, List.count_append]
    omega

theorem declares_placedAll {role : Role} {ns : List Node} (h : ShapedAll role ns)
    (scope home next : Nat) (d : Nat × Token) :
    ((placedAll scope home next ns).flatMap (·.declares)).count d =
      ((placedAll scope home next ns).flatMap (·.enters)).count d +
        ((declaredAll ns).map fun e => (home, e.name)).count d +
        ((letNames ns).map (scope, ·)).count d := by
  cases ns with
  | nil => rfl
  | cons n ns =>
    have hfirst := declares_placed h.1 scope home next d
    have hrest := declares_placedAll h.2 scope home
      (next + (placed scope home next n).countP (·.node.opensScope)) d
    simp only [placedAll, List.flatMap_append, List.count_append, hfirst, hrest, declaredAll,
      letNames_cons, List.map_append]
    omega
end

end Node

/-! ## Counting -/

namespace ScopeTree

def tally (t : ScopeTree) : List Nat := t.symbols.map (·.declarations)

/-- How often the symbol of a name in its own scope was declared, or 0 if there is none. -/
def declarationsOf (t : ScopeTree) (s : Nat) (name : String) : Nat :=
  (((t.locals s).lookup name).bind (t.tally[·]?)).getD 0

variable {t u : ScopeTree} {s id : Nat} {name : String} {o : Occurrence} {os : List Occurrence}

theorem sum_modify_succ {l : List Nat} {i : Nat} (h : i < l.length) :
    (l.modify i (· + 1)).sum = l.sum + 1 := by
  obtain ⟨before, a, behind, hsplit, -, hmodify⟩ := List.exists_of_modify (· + 1) h
  rw [hmodify, hsplit, List.sum_append, List.sum_append, List.sum_cons, List.sum_cons]
  omega

theorem tally_updateSymbol_same {f : ScriptSymbol → ScriptSymbol}
    (h : ∀ x, (f x).declarations = x.declarations) (t : ScopeTree) (id : Nat) :
    (t.updateSymbol id f).tally = t.tally := map_modify_same h _ _

theorem tally_addSymbol (t : ScopeTree) (x : ScriptSymbol) :
    (t.addSymbol x).tally = t.tally ++ [x.declarations] := List.map_append

/-- A name that its scope does not have joins with the declarations of its symbol. -/
theorem declarationsOf_addSymbol (ht : t.Sound) {x : ScriptSymbol} (hscope : x.scope < t.scopes.length)
    (hfree : (t.locals x.scope).lookup x.name = none) (s : Nat) (name : String) :
    (t.addSymbol x).declarationsOf s name =
      t.declarationsOf s name + if s = x.scope ∧ name = x.name then x.declarations else 0 := by
  have hlength : t.symbols.length = t.tally.length := (List.length_map _).symm
  rw [declarationsOf, declarationsOf, tally_addSymbol]
  by_cases hself : s = x.scope ∧ name = x.name
  · obtain ⟨rfl, rfl⟩ := hself
    rw [lookup_locals_self hscope hfree, hfree, Option.bind_some, hlength]
    simp
  · rw [if_neg hself, Nat.add_zero]
    cases h : (t.locals s).lookup name with
    | some id =>
      obtain ⟨y, hy, -⟩ := ht.known s name id h
      have hid : id < t.tally.length := by
        rw [← hlength]
        exact (List.getElem?_eq_some_iff.1 hy).1
      rw [lookup_locals_addSymbol hscope h, Option.bind_some, Option.bind_some,
        List.getElem?_append_left hid]
    | none =>
      have hnone : ((t.addSymbol x).locals s).lookup name = none := by
        rw [locals_addSymbol hscope, List.lookup_append, h, Option.none_or]
        split
        · next hs =>
          have hname : name ≠ x.name := fun e => hself ⟨hs, e⟩
          simp [List.lookup_cons, beq_false_of_ne hname]
        · rfl
      rw [hnone]
      rfl

/-- A declaration is counted for the symbol of its name in its scope, and once in all. -/
theorem Sound.declare_counts (ht : t.Sound) (hs : s < t.scopes.length) (kind : SymbolKind)
    (word : Token) :
    (∀ s' name, (t.declare s kind word).declarationsOf s' name =
      t.declarationsOf s' name + if s' = s ∧ name = word.value then 1 else 0) ∧
    (t.declare s kind word).tally.sum = t.tally.sum + 1 := by
  cases h : (t.locals s).lookup word.value with
  | some id =>
    obtain ⟨x, hx, -⟩ := ht.known s word.value id h
    have hid : id < t.tally.length := by
      rw [tally, List.length_map]
      exact (List.getElem?_eq_some_iff.1 hx).1
    have htally : (t.declare s kind word).tally = t.tally.modify id (· + 1) := by
      rw [declare_of_some h]
      exact map_modify (f := ScriptSymbol.declarations)
        (g := fun x => { x with declarations := x.declarations + 1 }) (k := (· + 1)) (fun _ => rfl) _ _
    refine ⟨fun s' name => ?_, by rw [htally, sum_modify_succ hid]⟩
    have hlocals : (t.declare s kind word).locals s' = t.locals s' := by
      rw [declare_of_some h]
      rfl
    rw [declarationsOf, declarationsOf, htally, hlocals]
    cases h' : (t.locals s').lookup name with
    | none =>
      have hother : ¬ (s' = s ∧ name = word.value) := by
        rintro ⟨rfl, rfl⟩
        rw [h] at h'
        cases h'
      rw [if_neg hother]
      rfl
    | some j =>
      rw [Option.bind_some, Option.bind_some, List.getElem?_modify]
      -- two names with one symbol would be one name in one scope
      by_cases hj : id = j
      · subst hj
        rw [if_pos (ht.lookup_inj h h'), List.getElem?_eq_getElem hid]
        simp
      · have hother : ¬ (s' = s ∧ name = word.value) := by
          rintro ⟨rfl, rfl⟩
          rw [h] at h'
          exact hj (Option.some.inj h')
        rw [if_neg hother, Nat.add_zero]
        cases t.tally[j]? <;> simp [hj]
  | none =>
    rw [declare_of_none h]
    refine ⟨fun s' name => ?_, ?_⟩
    · exact declarationsOf_addSymbol (ht.mention word.value) hs h s' name
    · rw [tally_addSymbol, List.sum_append]
      rfl

/-- Nothing is counted when something is assigned. -/
theorem Sound.assign_counts (ht : t.Sound) (hs : s < t.scopes.length) (target : SymbolPath)
    (operator valueKind : String) :
    (∀ s' name, (t.assign s target operator valueKind).declarationsOf s' name =
      t.declarationsOf s' name) ∧
    (t.assign s target operator valueKind).tally.sum = t.tally.sum := by
  cases hsingle : target.single? with
  | none =>
    rw [assign_of_member hsingle]
    exact ⟨fun _ _ => rfl, rfl⟩
  | some word =>
    cases h : t.lookup s word with
    | some id =>
      have htally := tally_updateSymbol_same (f := fun x => { x with assignments := x.assignments ++
        [{ position := target.root.location.position, operator, valueKind }] }) (fun _ => rfl)
        (t.mention word) id
      rw [assign_of_some hsingle h]
      refine ⟨fun s' name => ?_, ?_⟩
      · rw [declarationsOf, htally]
        rfl
      · rw [htally]
        rfl
    | none =>
      rw [assign_of_none hsingle h]
      refine ⟨fun s' name => ?_, ?_⟩
      · rw [declarationsOf_addSymbol (ht.mention word) ht.inhabited (ht.free_outermost hs h),
          ite_self, Nat.add_zero]
        rfl
      · rw [tally_addSymbol, List.sum_append]
        rfl

theorem Sound.declareEach_counts (ht : t.Sound) (hs : s < t.scopes.length) (hown : t.Owned s)
    {names : List (SymbolKind × Token)} (hkinds : ∀ name ∈ names, name.1 ≠ .global) :
    (∀ s' name, (t.declareEach s names).declarationsOf s' name = t.declarationsOf s' name +
      (names.map fun n => (s, n.2)).countP fun d => d.1 == s' && d.2.value == name) ∧
    (t.declareEach s names).tally.sum = t.tally.sum + names.length := by
  induction names generalizing t with
  | nil => exact ⟨fun _ _ => rfl, rfl⟩
  | cons n names ih =>
    obtain ⟨hkind, hkinds⟩ := List.forall_mem_cons.1 hkinds
    obtain ⟨hsound, howned⟩ := ht.declare hs hown hkind n.2
    obtain ⟨hcount, hsum⟩ := ht.declare_counts hs n.1 n.2
    have hlength := length_congr (frames_declare t s n.1 n.2)
    obtain ⟨hcounts, hsums⟩ := ih hsound (hlength ▸ hs) howned hkinds
    refine ⟨fun s' name => ?_, ?_⟩
    · refine (hcounts s' name).trans ?_
      have hself : (s == s' && n.2.value == name) = decide (s' = s ∧ name = n.2.value) := by
        rw [Bool.eq_iff_iff, decide_eq_true_iff, Bool.and_eq_true, beq_iff_eq, beq_iff_eq,
          eq_comm, @eq_comm _ name]
      rw [hcount, List.map_cons, List.countP_cons, hself, Nat.add_assoc,
        Nat.add_comm (List.countP _ _)]
      simp only [decide_eq_true_iff]
    · refine hsums.trans ?_
      rw [hsum, List.length_cons]
      omega

theorem Sound.enter_counts (ht : t.Sound) (kind : ScopeKind) {p : Nat} (hp : p < t.scopes.length)
    {names : List (SymbolKind × Token)} (hkinds : ∀ name ∈ names, name.1 ≠ .global) :
    (∀ s' name, (t.enter kind p names).declarationsOf s' name = t.declarationsOf s' name +
      (names.map fun n => (t.scopes.length, n.2)).countP fun d => d.1 == s' && d.2.value == name) ∧
    (t.enter kind p names).tally.sum = t.tally.sum + names.length := by
  have hnew : t.scopes.length < (t.openScope kind p).scopes.length := by
    rw [length_openScope]
    exact Nat.lt_succ_self _
  obtain ⟨hcounts, hsum⟩ :=
    (ht.openScope kind hp).declareEach_counts hnew (ht.owned_openScope kind p) hkinds
  refine ⟨fun s' name => (hcounts s' name).trans ?_, hsum⟩
  rw [declarationsOf, locals_openScope]
  rfl

/-- A node counts what is declared in the scope that it opens. -/
theorem Sound.meet_counts (ht : t.Sound) (hs : o.scope < t.scopes.length)
    (hopens : o.node.opensScope = true → o.opens = t.scopes.length) :
    (∀ s' name, (t.meet o).declarationsOf s' name = t.declarationsOf s' name +
      o.enters.countP fun d => d.1 == s' && d.2.value == name) ∧
    (t.meet o).tally.sum = t.tally.sum + o.enters.length := by
  rcases t.meet_cases o with ⟨kind, hkind, hmeet⟩ | ⟨c, target, operator, value, hnode, hmeet⟩ |
    ⟨hkind, -, hmeet⟩
  · have hopens := hopens (by rw [Node.opensScope, hkind]; rfl)
    rw [hmeet, Occurrence.enters, hopens, List.length_map]
    exact ht.enter_counts kind hs o.node.ownNames_ne_global
  · have hnone : o.enters = [] := by rw [Occurrence.enters, hnode]; rfl
    rw [hmeet, hnone]
    exact ht.assign_counts hs target operator value.kindName
  · have hnone : o.enters = [] := by
      rw [Occurrence.enters]
      cases hnode : o.node <;> first | rfl | (rw [hnode] at hkind; cases hkind)
    rw [hmeet, hnone]
    exact ⟨fun _ _ => rfl, rfl⟩

theorem Sound.meetAll_counts (ht : t.Sound) (hos : Node.InOrder t.scopes.length os) :
    (∀ s' name, (t.meetAll os).declarationsOf s' name = t.declarationsOf s' name +
      (os.flatMap (·.enters)).countP fun d => d.1 == s' && d.2.value == name) ∧
    (t.meetAll os).tally.sum = t.tally.sum + (os.flatMap (·.enters)).length := by
  induction os generalizing t with
  | nil => exact ⟨fun _ _ => rfl, rfl⟩
  | cons o os ih =>
    obtain ⟨hs, hrest⟩ := inOrder_meet hos
    obtain ⟨hcount, hsum⟩ := ht.meet_counts hs hos.2.2.1
    obtain ⟨hcounts, hsums⟩ := ih (ht.meet hs) hrest
    refine ⟨fun s' name => ?_, ?_⟩
    · refine (hcounts s' name).trans ?_
      rw [hcount, List.flatMap_cons, List.countP_append, Nat.add_assoc]
    · refine hsums.trans ?_
      rw [hsum, List.flatMap_cons, List.length_append, Nat.add_assoc]

end ScopeTree

/-! ## A script -/

namespace Node

open ScopeTree

mutual
theorem functions_eq (n : Node) : functions n = (preorder n).filterMap head? := by
  cases n with
  | declaration | returnNothing | reference | object | primitive | expression | skipped => rfl
  | block _ body => exact functionsAll_eq body
  | function c head body =>
    rw [functions, functionsAll_eq body]
    rfl
  | assignment _ _ _ value | returnValue _ value | instantiation _ value => exact functions_eq value
  | call _ _ arguments => exact functionsAll_eq arguments
  | array _ elements => exact functionsAll_eq elements
  | invocation _ _ arguments chain _ =>
    rw [functions, functionsAll_eq arguments, functionsAll_eq chain, ← List.filterMap_append]
    rfl
  | immediate _ _ body arguments =>
    rw [functions, functionsAll_eq body, functionsAll_eq arguments, ← List.filterMap_append]
    rfl

theorem functionsAll_eq (ns : List Node) : functionsAll ns = (preorderAll ns).filterMap head? := by
  cases ns with
  | nil => rfl
  | cons n ns =>
    rw [functionsAll, functions_eq n, functionsAll_eq ns, preorderAll, List.filterMap_append]
end

def declaring (n : Node) : Nat :=
  (if n.isDeclaration then 1 else 0) + n.head?.elim 0 (·.parameters.length)

theorem length_declares (o : Occurrence) : o.declares.length = o.node.declaring := by
  rw [Occurrence.declares]
  cases o.node with
  | declaration _ word _ => cases word <;> rfl
  | function _ head _ | immediate _ head _ _ => simp [declaring, isDeclaration, head?]
  | _ => rfl

theorem sum_declaring (ns : List Node) :
    (ns.map declaring).sum =
      ns.countP isDeclaration + ((ns.filterMap head?).map (·.parameters.length)).sum := by
  induction ns with
  | nil => rfl
  | cons n ns ih =>
    rw [List.map_cons, List.sum_cons, ih, List.countP_cons, List.filterMap_cons, declaring]
    cases n.head? with
    | none =>
      simp only [Option.elim_none]
      omega
    | some head =>
      simp only [Option.elim_some, List.map_cons, List.sum_cons]
      omega

theorem length_flatMap_declares (scope home next : Nat) (ns : List Node) :
    ((placedAll scope home next ns).flatMap (·.declares)).length =
      (preorderAll ns).countP isDeclaration +
        ((functionsAll ns).map (·.parameters.length)).sum := by
  have hnodes := ((placedAll_perm_preorderAll scope home next ns).map declaring).sum_nat
  rw [List.map_map, sum_declaring, ← functionsAll_eq] at hnodes
  rw [List.length_flatMap, ← hnodes]
  exact congrArg List.sum (List.map_congr_left fun o _ => length_declares o)

/-- What the nodes of a script declare is what is declared for the script and for each of its
nodes when it is bound. -/
theorem declares_perm {body : List Node} (h : ShapedAll .statement body) :
    ((placedAll 0 0 1 body).flatMap (·.declares)).Perm
      ((bodyNames body).map (fun n => (0, n.2)) ++ (placedAll 0 0 1 body).flatMap (·.enters)) := by
  refine List.perm_iff_count.2 fun d => ?_
  have hbody : (bodyNames body).map (fun n => (0, n.2)) =
      (declaredAll body).map (fun e => (0, e.name)) ++ (letNames body).map (0, ·) := by
    rw [bodyNames, List.map_append, List.map_map, List.map_map]
    rfl
  rw [declares_placedAll h 0 0 1 d, hbody, List.count_append, List.count_append]
  omega

theorem scopes_counts (names : Names) {body : List Node} (h : ShapedAll .statement body) :
    (∀ scope name, (scopes names body).declarationsOf scope name =
      ((placedAll 0 0 1 body).flatMap (·.declares)).countP
        fun d => d.1 == scope && d.2.value == name) ∧
    (scopes names body).tally.sum = ((placedAll 0 0 1 body).flatMap (·.declares)).length := by
  obtain ⟨hfirst, hfirsts⟩ := (sound_start names).declareEach_counts Nat.one_pos (owned_start names)
    (bodyNames_ne_global body)
  obtain ⟨hrest, hrests⟩ := (sound_outermost names body).meetAll_counts (inOrder_body names body)
  have hdeclares := declares_perm h
  rw [scopes_eq]
  refine ⟨fun scope name => ?_, ?_⟩
  · have hnone : (ScopeTree.start names).declarationsOf scope name = 0 := by
      rw [declarationsOf]
      cases scope <;> rfl
    rw [hrest, outermost, hfirst, hnone, Nat.zero_add, hdeclares.countP_eq, List.countP_append]
  · rw [hrests, outermost, hfirsts, hdeclares.length_eq, List.length_append, List.length_map]
    exact congrArg (· + _) (Nat.zero_add _)

end Node

open Node

/-- The symbol of a name in a scope counts how often the name is declared there: as a parameter
of the function of the scope, with `var` in the function or script of the scope, and with
`let` in the statements of the scope.  A name that is declared nowhere has a symbol only as a
global, and only if it is assigned.  No declaration is left out or counted twice. -/
theorem Script.declarations_counted {feed : TokenFeed} {s : Script} (h : ofFeed feed = .ok s)
    (names : Names) :
    (scopes names s.body).frames =
      (.program, none) :: (placedAll 0 0 1 s.body).filterMap (·.frame?) ∧
    (∀ o ∈ placedAll 0 0 1 s.body, o.node.opensScope = true →
      (scopes names s.body).frames[o.opens]? = o.frame?) ∧
    (∀ scope name c, 0 < c →
      ((∃ id x, ((scopes names s.body).locals scope).lookup name = some id ∧
          (scopes names s.body).symbols[id]? = some x ∧ x.declarations = c) ↔
        c = ((placedAll 0 0 1 s.body).flatMap (·.declares)).countP
          fun d => d.1 == scope && d.2.value == name)) ∧
    (∀ x ∈ (scopes names s.body).symbols, x.declarations = 0 →
      x.kind = .global ∧ x.scope = 0 ∧ x.assignments ≠ []) ∧
    ((scopes names s.body).symbols.map (·.declarations)).sum =
      (preorderAll s.body).countP isDeclaration +
        ((functionsAll s.body).map (·.parameters.length)).sum := by
  obtain ⟨hcount, hsum⟩ := scopes_counts names (shaped_ofFeed h)
  have hsound := sound_scopes names s.body
  refine ⟨frames_scopes names s.body, frames_scopes_opens names s.body, ?_, ?_, ?_⟩
  · intro scope name c hc
    rw [← hcount]
    constructor
    · rintro ⟨id, x, hname, hx, rfl⟩
      rw [ScopeTree.declarationsOf, hname, Option.bind_some, ScopeTree.tally, List.getElem?_map, hx]
      rfl
    · intro hdeclared
      cases hname : ((scopes names s.body).locals scope).lookup name with
      | none =>
        rw [ScopeTree.declarationsOf, hname] at hdeclared
        exact absurd hdeclared (Nat.ne_of_gt hc)
      | some id =>
        obtain ⟨x, hx, -, -⟩ := hsound.known scope name id hname
        rw [ScopeTree.declarationsOf, hname, Option.bind_some, ScopeTree.tally, List.getElem?_map,
          hx] at hdeclared
        exact ⟨id, x, rfl, hx, hdeclared.symm⟩
  · intro x hx hnone
    obtain ⟨id, hid⟩ := List.getElem?_of_mem hx
    have hfounded := hsound.founded id x hid
    rw [ScriptSymbol.Founded] at hfounded
    split at hfounded
    · next hkind => exact ⟨hkind, hfounded.2⟩
    · exact absurd hnone (Nat.ne_of_gt hfounded)
  · rw [← length_flatMap_declares 0 0 1, ← hsum]
    rfl

/-- A name that is declared as a parameter twice, with `var`, and with `let` in a block. -/
theorem Script.declarations_counted_repeated :
    ∃ s, ofFeed (.ofText "function f(a, a) \x7b var a; \x7b let a; var b; \x7d c = a; \x7d") = .ok s ∧
      (scopes {} s.body).symbols.map (fun x => (x.name, x.scope, x.declarations)) =
        [("f", 0, 1), ("a", 1, 3), ("b", 1, 1), ("a", 2, 1), ("c", 0, 0)] ∧
      (∀ scope name c, 0 < c →
        ((∃ id x, ((scopes {} s.body).locals scope).lookup name = some id ∧
            (scopes {} s.body).symbols[id]? = some x ∧ x.declarations = c) ↔
          c = ((placedAll 0 0 1 s.body).flatMap (·.declares)).countP
            fun d => d.1 == scope && d.2.value == name)) ∧
      ((scopes {} s.body).symbols.map (·.declarations)).sum =
        (preorderAll s.body).countP isDeclaration +
          ((functionsAll s.body).map (·.parameters.length)).sum := by
  have hfull : (ofFeed (.ofText
        "function f(a, a) \x7b var a; \x7b let a; var b; \x7d c = a; \x7d")).toOption.any
      (fun s => (scopes {} s.body).symbols.map (fun x => (x.name, x.scope, x.declarations)) ==
        [("f", 0, 1), ("a", 1, 3), ("b", 1, 1), ("a", 2, 1), ("c", 0, 0)]) = true := by
    decide +kernel
  obtain ⟨s, hs, hsymbols⟩ := exists_of_any hfull
  obtain ⟨-, -, hcounts, -, hsum⟩ := declarations_counted hs {}
  exact ⟨s, hs, eq_of_beq hsymbols, hcounts, hsum⟩

end ScriptOutline
