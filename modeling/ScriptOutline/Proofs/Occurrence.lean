/-
Where the nodes of a script stand when they are bound.

`placed` lists the nodes in the order in which they are bound, each with the scope that it
stands in.  Scopes are numbered as they are opened, and only a block or a function opens one.
The list says all that binding depends on: to bind is to do one node after another,
`bind_eq_meetAll`, and what a node does to the scopes, `meet`, leaves out the nodes in it.
So what holds of the scopes of a script is shown for one node and follows for a run.
-/
import ScriptOutline.Proofs.ScopeTree
import ScriptOutline.Proofs.Warnings

namespace ScriptOutline

structure Occurrence where
  scope : Nat
  /-- The scope of the innermost function around the node or, outside of functions, of the
  script. -/
  home : Nat
  /-- The number of the scope that the node opens, if it opens one. -/
  opens : Nat
  node : Node

namespace Node

def scopeKind? : Node → Option ScopeKind
  | block .. => some .block
  | function _ head _ | immediate _ head _ _ => some (.function head.name.text)
  | _ => none

def opensScope (n : Node) : Bool := n.scopeKind?.isSome

mutual
/-- The nodes in a node, itself included, in the order in which they are bound.  `next` is the
number of the next scope to be opened. -/
def placed (scope home next : Nat) : Node → List Occurrence
  | block c body =>
    { scope, home, opens := next, node := block c body } :: placedAll next home (next + 1) body
  | declaration c word name => [{ scope, home, opens := next, node := declaration c word name }]
  | assignment c target operator value =>
    { scope, home, opens := next, node := assignment c target operator value } ::
      placed scope home next value
  | function c head body =>
    { scope, home, opens := next, node := function c head body } ::
      placedAll next next (next + 1) body
  | returnNothing c => [{ scope, home, opens := next, node := returnNothing c }]
  | returnValue c value =>
    { scope, home, opens := next, node := returnValue c value } :: placed scope home next value
  | call c callee arguments =>
    { scope, home, opens := next, node := call c callee arguments } ::
      placedAll scope home next arguments
  | reference c path tail => [{ scope, home, opens := next, node := reference c path tail }]
  | invocation c path arguments chain tail =>
    let given := placedAll scope home next arguments
    { scope, home, opens := next, node := invocation c path arguments chain tail } ::
      (given ++ placedAll scope home (next + given.countP (·.node.opensScope)) chain)
  | instantiation c value =>
    { scope, home, opens := next, node := instantiation c value } :: placed scope home next value
  | array c elements =>
    { scope, home, opens := next, node := array c elements } :: placedAll scope home next elements
  | object c trees => [{ scope, home, opens := next, node := object c trees }]
  | primitive c kind token => [{ scope, home, opens := next, node := primitive c kind token }]
  | expression c trees => [{ scope, home, opens := next, node := expression c trees }]
  | immediate c head body arguments =>
    let given := placedAll scope home next arguments
    let inner := next + given.countP (·.node.opensScope)
    given ++ { scope, home, opens := inner, node := immediate c head body arguments } ::
      placedAll inner inner (inner + 1) body
  | skipped c keyword trees => [{ scope, home, opens := next, node := skipped c keyword trees }]

def placedAll (scope home next : Nat) : List Node → List Occurrence
  | [] => []
  | n :: ns =>
    let first := placed scope home next n
    first ++ placedAll scope home (next + first.countP (·.node.opensScope)) ns
end

mutual
/-- Each node of a script is placed once. -/
theorem placed_perm_preorder (scope home next : Nat) (n : Node) :
    ((placed scope home next n).map (·.node)).Perm (preorder n) := by
  cases n with
  | block c body => exact (placedAll_perm_preorderAll ..).cons _
  | declaration | returnNothing | reference | object | primitive | expression | skipped => rfl
  | assignment _ _ _ value | returnValue _ value | instantiation _ value =>
    exact (placed_perm_preorder _ _ _ value).cons _
  | function _ _ body => exact (placedAll_perm_preorderAll _ _ _ body).cons _
  | call _ _ arguments => exact (placedAll_perm_preorderAll _ _ _ arguments).cons _
  | array _ elements => exact (placedAll_perm_preorderAll _ _ _ elements).cons _
  | invocation _ _ arguments chain _ =>
    simp only [placed, preorder, List.map_cons, List.map_append]
    exact ((placedAll_perm_preorderAll _ _ _ arguments).append
      (placedAll_perm_preorderAll _ _ _ chain)).cons _
  | immediate _ _ body arguments =>
    simp only [placed, preorder, List.map_cons, List.map_append]
    refine List.perm_middle.trans (List.Perm.cons _ ?_)
    exact ((placedAll_perm_preorderAll _ _ _ arguments).append
      (placedAll_perm_preorderAll _ _ _ body)).trans List.perm_append_comm

theorem placedAll_perm_preorderAll (scope home next : Nat) (ns : List Node) :
    ((placedAll scope home next ns).map (·.node)).Perm (preorderAll ns) := by
  cases ns with
  | nil => rfl
  | cons n ns =>
    simp only [placedAll, preorderAll, List.map_append]
    exact (placed_perm_preorder _ _ _ n).append (placedAll_perm_preorderAll _ _ _ ns)
end

/-- Nodes as they are placed when `next` scopes have been opened: each stands in a scope that
is open, and the next scope gets the next number. -/
def InOrder (next : Nat) : List Occurrence → Prop
  | [] => True
  | o :: os =>
    o.scope < next ∧ o.home < next ∧ (o.node.opensScope = true → o.opens = next) ∧
      InOrder (next + if o.node.opensScope then 1 else 0) os

theorem inOrder_append {next : Nat} {os us : List Occurrence} :
    InOrder next (os ++ us) ↔
      InOrder next os ∧ InOrder (next + os.countP (·.node.opensScope)) us := by
  induction os generalizing next with
  | nil => simp [InOrder]
  | cons o os ih =>
    simp only [List.cons_append, InOrder, ih, List.countP_cons, Nat.add_assoc, Nat.add_comm]
    grind

mutual
theorem inOrder_placed {scope home next : Nat} (hs : scope < next) (hh : home < next) (n : Node) :
    InOrder next (placed scope home next n) := by
  cases n with
  | block c body =>
    exact ⟨hs, hh, fun _ => rfl, inOrder_placedAll (Nat.lt_succ_self _) (Nat.lt_succ_of_lt hh) body⟩
  | declaration | returnNothing | reference | object | primitive | expression | skipped =>
    exact ⟨hs, hh, fun _ => rfl, trivial⟩
  | assignment _ _ _ value | returnValue _ value | instantiation _ value =>
    exact ⟨hs, hh, fun _ => rfl, inOrder_placed hs hh value⟩
  | function _ _ body =>
    exact ⟨hs, hh, fun _ => rfl, inOrder_placedAll (Nat.lt_succ_self _) (Nat.lt_succ_self _) body⟩
  | call _ _ arguments => exact ⟨hs, hh, fun _ => rfl, inOrder_placedAll hs hh arguments⟩
  | array _ elements => exact ⟨hs, hh, fun _ => rfl, inOrder_placedAll hs hh elements⟩
  | invocation _ _ arguments chain _ =>
    exact ⟨hs, hh, fun _ => rfl, inOrder_append.2 ⟨inOrder_placedAll hs hh arguments,
      inOrder_placedAll (Nat.lt_add_right _ hs) (Nat.lt_add_right _ hh) chain⟩⟩
  | immediate _ _ body arguments =>
    exact inOrder_append.2 ⟨inOrder_placedAll hs hh arguments, Nat.lt_add_right _ hs,
      Nat.lt_add_right _ hh, fun _ => rfl,
      inOrder_placedAll (Nat.lt_succ_self _) (Nat.lt_succ_self _) body⟩

theorem inOrder_placedAll {scope home next : Nat} (hs : scope < next) (hh : home < next)
    (ns : List Node) : InOrder next (placedAll scope home next ns) := by
  cases ns with
  | nil => trivial
  | cons n ns =>
    exact inOrder_append.2 ⟨inOrder_placed hs hh n,
      inOrder_placedAll (Nat.lt_add_right _ hs) (Nat.lt_add_right _ hh) ns⟩
end

/-- The names that a body declares in the scope of its function or of the script. -/
def bodyNames (body : List Node) : List (SymbolKind × Token) :=
  (declaredAll body).map (fun d => (.varName, d.name)) ++ (letNames body).map (.letName, ·)

/-- The names that are declared in the scope that a node opens, in order. -/
def ownNames : Node → List (SymbolKind × Token)
  | block _ body => (letNames body).map (.letName, ·)
  | function _ head body | immediate _ head body _ =>
    head.parameters.map (.parameter, ·) ++ bodyNames body
  | _ => []

theorem ownNames_ne_global (n : Node) : ∀ name ∈ n.ownNames, name.1 ≠ .global := by
  cases n <;> simp only [ownNames, bodyNames, List.mem_append, List.mem_map, List.not_mem_nil] <;>
    grind

/-- The name to which a node assigns, with the record of the assignment.  A node that assigns
to a member of something has none. -/
def assigned? : Node → Option (String × AssignmentRecord)
  | assignment _ target operator value => target.single?.map fun name =>
    (name, { position := target.root.location.position, operator, valueKind := value.kindName })
  | _ => none

theorem declareBody_eq (scope : Nat) (body : List Node) (t : ScopeTree) :
    declareBody scope body t = t.declareEach scope (bodyNames body) := by
  rw [declareBody, declareBlock, ScopeTree.declareAll_eq, ScopeTree.declareAll_eq, bodyNames,
    ScopeTree.declareEach_append, List.map_map]
  rfl

theorem enterFunction_eq (scope : Nat) (head : FunctionHead) (body : List Node) (t : ScopeTree) :
    enterFunction scope head body t = t.enter (.function head.name.text) scope
      (head.parameters.map (.parameter, ·) ++ bodyNames body) := by
  rw [enterFunction, declareBody_eq, ScopeTree.declareAll_eq, ScopeTree.enter,
    ScopeTree.declareEach_append]

end Node

/-- What one node does to the scopes, those in it left out. -/
def ScopeTree.meet (t : ScopeTree) (o : Occurrence) : ScopeTree :=
  match o.node.scopeKind? with
  | some kind => t.enter kind o.scope o.node.ownNames
  | none =>
    match o.node with
    | .assignment _ target operator value => t.assign o.scope target operator value.kindName
    | _ => t

/-- The kind of a scope and the scope around it, if the node opens one. -/
def Occurrence.frame? (o : Occurrence) : Option (ScopeKind × Option Nat) :=
  o.node.scopeKind?.map (·, some o.scope)

namespace ScopeTree

variable {t : ScopeTree} {o : Occurrence} {os : List Occurrence} {s id : Nat} {name : String}

/-- A node opens a scope, assigns to something, or does nothing. -/
theorem meet_cases (t : ScopeTree) (o : Occurrence) :
    (∃ kind, o.node.scopeKind? = some kind ∧ t.meet o = t.enter kind o.scope o.node.ownNames) ∨
    (∃ c target operator value, o.node = .assignment c target operator value ∧
      t.meet o = t.assign o.scope target operator value.kindName) ∨
    (o.node.scopeKind? = none ∧ o.node.assigned? = none ∧ t.meet o = t) := by
  cases hkind : o.node.scopeKind? with
  | some kind => exact .inl ⟨kind, rfl, by rw [meet, hkind]⟩
  | none =>
    refine .inr ?_
    have hmeet : t.meet o = match o.node with
        | .assignment _ target operator value => t.assign o.scope target operator value.kindName
        | _ => t := by rw [meet, hkind]
    cases hnode : o.node with
    | assignment c target operator value =>
      exact .inl ⟨c, target, operator, value, rfl, by rw [hmeet, hnode]⟩
    | _ => exact .inr ⟨rfl, rfl, by rw [hmeet, hnode]⟩

theorem frames_meet (t : ScopeTree) (o : Occurrence) :
    (t.meet o).frames = t.frames ++ o.frame?.toList := by
  rcases t.meet_cases o with ⟨kind, hkind, hmeet⟩ | ⟨_, _, _, _, hnode, hmeet⟩ | ⟨hkind, -, hmeet⟩
  · rw [hmeet, frames_enter, Occurrence.frame?, hkind]
    rfl
  · rw [hmeet, frames_assign, Occurrence.frame?, hnode]
    exact (List.append_nil _).symm
  · rw [hmeet, Occurrence.frame?, hkind]
    exact (List.append_nil _).symm

theorem length_meet (t : ScopeTree) (o : Occurrence) :
    (t.meet o).scopes.length = t.scopes.length + if o.node.opensScope then 1 else 0 := by
  rw [← length_frames, frames_meet, List.length_append, length_frames, Occurrence.frame?,
    Node.opensScope]
  cases o.node.scopeKind? <;> rfl

theorem Sound.meet (ht : t.Sound) (hs : o.scope < t.scopes.length) : (t.meet o).Sound := by
  rcases t.meet_cases o with ⟨kind, -, hmeet⟩ | ⟨_, _, _, _, -, hmeet⟩ | ⟨-, -, hmeet⟩
  · rw [hmeet]
    exact ht.enter kind hs o.node.ownNames_ne_global
  · rw [hmeet]
    exact ht.assign hs
  · rwa [hmeet]

/-- What a name stands for it still stands for after another node. -/
theorem Sound.lookup_meet (ht : t.Sound) (hs : s < t.scopes.length)
    (h : t.lookup s name = some id) : (t.meet o).lookup s name = some id := by
  rcases t.meet_cases o with ⟨kind, -, hmeet⟩ | ⟨_, _, _, _, -, hmeet⟩ | ⟨-, -, hmeet⟩
  · rw [hmeet, lookup_enter hs, h]
  · rw [hmeet]
    exact ht.lookup_assign h
  · rwa [hmeet]

def meetAll (t : ScopeTree) (os : List Occurrence) : ScopeTree := os.foldl meet t

theorem meetAll_append (t : ScopeTree) (os us : List Occurrence) :
    t.meetAll (os ++ us) = (t.meetAll os).meetAll us := List.foldl_append

theorem length_meetAll (t : ScopeTree) (os : List Occurrence) :
    (t.meetAll os).scopes.length = t.scopes.length + os.countP (·.node.opensScope) := by
  induction os generalizing t with
  | nil => rfl
  | cons o os ih =>
    rw [meetAll, List.foldl_cons]
    refine (ih (t.meet o)).trans ?_
    rw [length_meet, List.countP_cons]
    omega

theorem frames_meetAll (t : ScopeTree) (os : List Occurrence) :
    (t.meetAll os).frames = t.frames ++ os.filterMap (·.frame?) := by
  induction os generalizing t with
  | nil => exact (List.append_nil _).symm
  | cons o os ih =>
    rw [meetAll, List.foldl_cons]
    refine (ih (t.meet o)).trans ?_
    rw [frames_meet, List.append_assoc]
    cases hframe : o.frame? <;> simp [hframe]

/-- The number that a node gives as that of its scope is the place of that scope. -/
theorem frames_opens (hos : Node.InOrder t.scopes.length os) :
    ∀ o ∈ os, o.node.opensScope = true → (t.meetAll os).frames[o.opens]? = o.frame? := by
  rw [frames_meetAll]
  rw [← length_frames] at hos
  generalize t.frames = frames at hos ⊢
  induction os generalizing frames with
  | nil => simp
  | cons o os ih =>
    obtain ⟨-, -, hopens, hrest⟩ := hos
    have hframes : frames ++ (o :: os).filterMap (·.frame?) =
        frames ++ o.frame?.toList ++ os.filterMap (·.frame?) := by
      cases hframe : o.frame? <;> simp [hframe]
    have hlength : (frames ++ o.frame?.toList).length =
        frames.length + if o.node.opensScope then 1 else 0 := by
      rw [List.length_append, Occurrence.frame?, Node.opensScope]
      cases o.node.scopeKind? <;> rfl
    rw [hframes]
    intro u hu hscope
    rcases List.mem_cons.1 hu with rfl | hu
    · -- the next scope is the one behind those that are open
      obtain ⟨frame, hframe⟩ : ∃ frame, u.frame? = some frame := by
        rw [Occurrence.frame?, ← Option.isSome_iff_exists, Option.isSome_map]
        exact hscope
      rw [hopens hscope, hframe]
      simp
    · exact ih _ (hlength ▸ hrest) u hu hscope

/-- A node behind others finds the scopes that they leave. -/
theorem inOrder_meet (h : Node.InOrder t.scopes.length (o :: os)) :
    o.scope < t.scopes.length ∧ Node.InOrder (t.meet o).scopes.length os := by
  obtain ⟨hs, -, -, hos⟩ := h
  rw [length_meet]
  exact ⟨hs, hos⟩

theorem Sound.meetAll (ht : t.Sound) (hos : Node.InOrder t.scopes.length os) :
    (t.meetAll os).Sound := by
  induction os generalizing t with
  | nil => exact ht
  | cons o os ih =>
    obtain ⟨hs, hos⟩ := inOrder_meet hos
    exact ih (ht.meet hs) hos

theorem Sound.lookup_meetAll (ht : t.Sound) (hos : Node.InOrder t.scopes.length os)
    (hs : s < t.scopes.length) (h : t.lookup s name = some id) :
    (t.meetAll os).lookup s name = some id := by
  induction os generalizing t with
  | nil => exact h
  | cons o os ih =>
    obtain ⟨hscope, hos⟩ := inOrder_meet hos
    refine ih (ht.meet hscope) hos ?_ (ht.lookup_meet hs h)
    rw [length_meet]
    exact Nat.lt_add_right _ hs

end ScopeTree

namespace Node

open ScopeTree

/-- The function that a node opens a scope for is entered. -/
theorem enterFunction_eq_meet {o : Occurrence} {head : FunctionHead} {body : List Node}
    (hkind : o.node.scopeKind? = some (.function head.name.text))
    (hnames : o.node.ownNames = head.parameters.map (.parameter, ·) ++ bodyNames body)
    (t : ScopeTree) : enterFunction o.scope head body t = t.meet o := by
  rw [enterFunction_eq, meet, hkind, ← hnames]

theorem declareBlock_eq_meet {o : Occurrence} {c : List Comment} {body : List Node}
    (hnode : o.node = block c body) (t : ScopeTree) :
    declareBlock t.scopes.length body (t.openScope .block o.scope) = t.meet o := by
  rw [declareBlock, declareAll_eq, meet, hnode]
  rfl

mutual
/-- To bind a node is to do it and those in it one after another. -/
theorem bind_eq_meetAll (scope home : Nat) (n : Node) (t : ScopeTree) :
    bind scope n t = t.meetAll (placed scope home t.scopes.length n) := by
  cases n with
  | declaration | returnNothing | reference | object | primitive | expression | skipped => rfl
  | block c body =>
    let o : Occurrence := ⟨scope, home, t.scopes.length, block c body⟩
    have hbody := bindAll_eq_meetAll t.scopes.length home body (t.meet o)
    rw [length_meet] at hbody
    rw [bind, declareBlock_eq_meet (o := o) rfl]
    exact hbody
  | function c head body =>
    let o : Occurrence := ⟨scope, home, t.scopes.length, function c head body⟩
    have hbody := bindAll_eq_meetAll t.scopes.length t.scopes.length body (t.meet o)
    rw [length_meet] at hbody
    rw [bind, enterFunction_eq_meet (o := o) rfl rfl]
    exact hbody
  | immediate c head body arguments =>
    let u := t.meetAll (placedAll scope home t.scopes.length arguments)
    have hinner : u.scopes.length = _ := length_meetAll t _
    let o : Occurrence := ⟨scope, home, u.scopes.length, immediate c head body arguments⟩
    have hbody := bindAll_eq_meetAll u.scopes.length u.scopes.length body (u.meet o)
    rw [length_meet] at hbody
    simp only [bind, placed, meetAll_append, ← hinner]
    rw [bindAll_eq_meetAll scope home arguments t, enterFunction_eq_meet (o := o) rfl rfl]
    exact hbody
  | assignment c target operator value =>
    let o : Occurrence := ⟨scope, home, t.scopes.length, assignment c target operator value⟩
    have hvalue := bind_eq_meetAll scope home value (t.meet o)
    rw [length_meet] at hvalue
    exact hvalue
  | returnValue _ value | instantiation _ value => exact bind_eq_meetAll scope home value t
  | call _ _ arguments => exact bindAll_eq_meetAll scope home arguments t
  | array _ elements => exact bindAll_eq_meetAll scope home elements t
  | invocation _ _ arguments chain _ =>
    have hchain := bindAll_eq_meetAll scope home chain
      (t.meetAll (placedAll scope home t.scopes.length arguments))
    rw [length_meetAll, ← meetAll_append] at hchain
    rw [bind, bindAll_eq_meetAll scope home arguments t]
    exact hchain

theorem bindAll_eq_meetAll (scope home : Nat) (ns : List Node) (t : ScopeTree) :
    bindAll scope ns t = t.meetAll (placedAll scope home t.scopes.length ns) := by
  cases ns with
  | nil => rfl
  | cons n ns =>
    rw [bindAll, placedAll, meetAll_append, ← length_meetAll, ← bind_eq_meetAll]
    exact bindAll_eq_meetAll scope home ns _
end

/-! ## A script -/

/-- The scopes of a script before its first node is bound. -/
def outermost (names : Names) (body : List Node) : ScopeTree :=
  (ScopeTree.start names).declareEach 0 (bodyNames body)

theorem length_outermost (names : Names) (body : List Node) :
    (outermost names body).scopes.length = 1 :=
  length_congr (frames_declareEach (.start names) 0 (bodyNames body))

theorem scopes_eq (names : Names) (body : List Node) :
    scopes names body = (outermost names body).meetAll (placedAll 0 0 1 body) := by
  have hbind := bindAll_eq_meetAll 0 0 body (outermost names body)
  rw [length_outermost] at hbind
  rw [← hbind, scopes, declareBody_eq]
  rfl

theorem sound_start (names : Names) : (ScopeTree.start names).Sound := by
  refine ⟨Nat.one_pos, rfl, ?_, ?_, ?_, ?_⟩
  · intro i hi
    exact absurd (Nat.lt_of_succ_lt_succ hi) (Nat.not_lt_zero i)
  · intro s name id hname
    have hlocals : (ScopeTree.start names).locals s = [] := by cases s <;> rfl
    rw [hlocals] at hname
    cases hname
  · rintro id x ⟨⟩
  · rintro id x ⟨⟩

theorem owned_start (names : Names) : (ScopeTree.start names).Owned 0 := by rintro id x ⟨⟩

theorem bodyNames_ne_global (body : List Node) : ∀ name ∈ bodyNames body, name.1 ≠ .global := by
  intro name hname
  simp only [bodyNames, List.mem_append, List.mem_map] at hname
  grind

theorem sound_outermost (names : Names) (body : List Node) : (outermost names body).Sound :=
  (sound_start names).declareEach Nat.one_pos (owned_start names) (bodyNames_ne_global body)

theorem inOrder_body (names : Names) (body : List Node) :
    InOrder (outermost names body).scopes.length (placedAll 0 0 1 body) := by
  rw [length_outermost]
  exact inOrder_placedAll Nat.one_pos Nat.one_pos body

theorem sound_scopes (names : Names) (body : List Node) : (scopes names body).Sound := by
  rw [scopes_eq]
  exact (sound_outermost names body).meetAll (inOrder_body names body)

/-- The scopes of a script are its own and those that its blocks and functions open, in order
and each in the scope where its node stands. -/
theorem frames_scopes (names : Names) (body : List Node) :
    (scopes names body).frames =
      (.program, none) :: (placedAll 0 0 1 body).filterMap (·.frame?) := by
  rw [scopes_eq, frames_meetAll, outermost, frames_declareEach]
  rfl

theorem frames_scopes_opens (names : Names) (body : List Node) :
    ∀ o ∈ placedAll 0 0 1 body, o.node.opensScope = true →
      (scopes names body).frames[o.opens]? = o.frame? := by
  rw [scopes_eq]
  exact frames_opens (inOrder_body names body)

end Node

end ScriptOutline
