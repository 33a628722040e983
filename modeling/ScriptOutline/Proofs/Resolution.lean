/-
What assignments resolve to.

An assignment is recorded when it is bound, on the symbol that its name stands for then.  All
scopes around it have their names by that time, and what is bound later opens scopes of its
own or makes a global of a name that stood for nothing.  So the name stands for the same
symbol when the script is bound to its end.
-/
import ScriptOutline.Proofs.Occurrence

namespace ScriptOutline

/-- The record of the node, if it assigns to a name that stands for the symbol `id`. -/
def Occurrence.recordFor (t : ScopeTree) (id : Nat) (o : Occurrence) : Option AssignmentRecord :=
  o.node.assigned?.bind fun a => if t.lookup o.scope a.1 = some id then some a.2 else none

namespace ScopeTree

def ledger (t : ScopeTree) : List (List AssignmentRecord) := t.symbols.map (·.assignments)

def assignmentsOf (t : ScopeTree) (id : Nat) : List AssignmentRecord := t.ledger[id]?.getD []

variable {t u : ScopeTree} {s id k : Nat} {name : String} {o : Occurrence} {os : List Occurrence}
  {r : AssignmentRecord}

theorem getD_padded {α : Type} (l : List (List α)) (k i : Nat) :
    (l ++ List.replicate k [])[i]?.getD [] = l[i]?.getD [] := by
  rw [List.getElem?_append]
  split
  · rfl
  · next hi =>
    rw [List.getElem?_eq_none (Nat.le_of_not_lt hi), List.getElem?_replicate]
    split <;> rfl

theorem ledger_declare (t : ScopeTree) (s : Nat) (kind : SymbolKind) (word : Token) :
    ∃ k, (t.declare s kind word).ledger = t.ledger ++ List.replicate k [] := by
  cases h : (t.locals s).lookup word.value with
  | some id =>
    refine ⟨0, ?_⟩
    rw [declare_of_some h, List.replicate_zero, List.append_nil]
    exact map_modify_same (f := ScriptSymbol.assignments)
      (g := fun x => { x with declarations := x.declarations + 1 }) (fun _ => rfl) _ _
  | none =>
    refine ⟨1, ?_⟩
    rw [declare_of_none h]
    exact List.map_append

theorem ledger_declareEach (t : ScopeTree) (s : Nat) (names : List (SymbolKind × Token)) :
    ∃ k, (t.declareEach s names).ledger = t.ledger ++ List.replicate k [] := by
  induction names generalizing t with
  | nil => exact ⟨0, (List.append_nil _).symm⟩
  | cons name names ih =>
    obtain ⟨i, hi⟩ := ledger_declare t s name.1 name.2
    obtain ⟨j, hj⟩ := ih (t.declare s name.1 name.2)
    refine ⟨i + j, hj.trans ?_⟩
    rw [hi, List.append_assoc, List.replicate_append_replicate]

/-- One record is added to the symbol `id`, which may be new. -/
def Records (t : ScopeTree) (id : Nat) (r : AssignmentRecord) (u : ScopeTree) : Prop :=
  ∃ k, id < t.ledger.length + k ∧ u.ledger = (t.ledger ++ List.replicate k []).modify id (· ++ [r])

theorem Records.assignmentsOf (h : Records t id r u) (j : Nat) :
    u.assignmentsOf j = t.assignmentsOf j ++ if id = j then [r] else [] := by
  obtain ⟨k, hid, hledger⟩ := h
  rw [ScopeTree.assignmentsOf, ScopeTree.assignmentsOf, hledger, List.getElem?_modify,
    ← getD_padded t.ledger k j]
  by_cases hj : id = j
  · subst hj
    rw [List.getElem?_eq_getElem (by simpa using hid)]
    simp
  · rw [if_neg hj, List.append_nil]
    cases (t.ledger ++ List.replicate k [])[j]? <;> simp [hj]

theorem Records.perm (h : Records t id r u) : u.ledger.flatten.Perm (t.ledger.flatten ++ [r]) := by
  obtain ⟨k, hid, hledger⟩ := h
  obtain ⟨before, rs, behind, hsplit, -, hmodify⟩ :=
    List.exists_of_modify (· ++ [r]) (l := t.ledger ++ List.replicate k []) (i := id)
      (by simpa using hid)
  have hflat : t.ledger.flatten = before.flatten ++ (rs ++ behind.flatten) := by
    have hjoined := congrArg List.flatten hsplit
    simpa using hjoined
  rw [hledger, hmodify, hflat]
  simp only [List.flatten_append, List.flatten_cons, List.append_assoc]
  exact ((List.perm_append_comm).append_left rs).append_left before.flatten

/-- An assignment to a name is recorded on the symbol for which the name stands from then
on. -/
theorem Sound.assign_records (ht : t.Sound) (hs : s < t.scopes.length) {target : SymbolPath}
    (hsingle : target.single? = some name) (operator valueKind : String) :
    ∃ id, (t.assign s target operator valueKind).lookup s name = some id ∧
      Records t id { position := target.root.location.position, operator, valueKind }
        (t.assign s target operator valueKind) := by
  cases h : t.lookup s name with
  | some id =>
    obtain ⟨x, hx, -⟩ := ht.exists_symbol h
    refine ⟨id, ht.lookup_assign h, 0, ?_, ?_⟩
    · rw [ledger, List.length_map]
      exact (List.getElem?_eq_some_iff.1 hx).1
    · rw [assign_of_some hsingle h, List.replicate_zero, List.append_nil]
      let r : AssignmentRecord :=
        { position := target.root.location.position, operator, valueKind }
      exact map_modify (f := ScriptSymbol.assignments)
        (g := fun x => { x with assignments := x.assignments ++ [r] }) (k := (· ++ [r]))
        (fun _ => rfl) t.symbols id
  | none =>
    refine ⟨t.symbols.length, ?_, 1, ?_, ?_⟩
    · rw [assign_of_none hsingle h]
      exact (ht.mention name).lookup_addSymbol_self rfl hs ((lookup_mention ..).trans h)
    · rw [ledger, List.length_map]
      exact Nat.lt_succ_self _
    · have hnew (l : List (List AssignmentRecord)) (r : AssignmentRecord) :
          l ++ [[r]] = (l ++ [[]]).modify l.length (· ++ [r]) := by
        rw [List.modify_eq_take_drop]
        simp
      have hlength : t.symbols.length = t.ledger.length := (List.length_map _).symm
      rw [assign_of_none hsingle h, hlength]
      exact List.map_append.trans (hnew t.ledger _)

/-- A node that assigns to a name records that once, where the name leads from then on, and any
other node records nothing. -/
theorem Sound.meet_records (ht : t.Sound) (hs : o.scope < t.scopes.length) :
    match o.node.assigned? with
    | some (name, r) => ∃ id, (t.meet o).lookup o.scope name = some id ∧ Records t id r (t.meet o)
    | none => ∃ k, (t.meet o).ledger = t.ledger ++ List.replicate k [] := by
  rcases t.meet_cases o with
    ⟨kind, hkind, hmeet⟩ | ⟨c, target, operator, value, hnode, hmeet⟩ | ⟨-, hnone, hmeet⟩
  · have hnone : o.node.assigned? = none := by
      cases hnode : o.node <;> first | rfl | (rw [hnode] at hkind; cases hkind)
    rw [hnone, hmeet]
    exact ledger_declareEach (t.openScope kind o.scope) t.scopes.length o.node.ownNames
  · rw [hnode, hmeet, Node.assigned?]
    cases hsingle : target.single? with
    | none => exact ⟨0, by rw [assign_of_member hsingle]; exact (List.append_nil _).symm⟩
    | some name => exact ht.assign_records hs hsingle operator value.kindName
  · rw [hnone, hmeet]
    exact ⟨0, (List.append_nil _).symm⟩

/-- What is recorded on a symbol after a run are the assignments to names that lead to it in
the end. -/
theorem Sound.assignmentsOf_meetAll (ht : t.Sound) (hos : Node.InOrder t.scopes.length os)
    (id : Nat) :
    (t.meetAll os).assignmentsOf id =
      t.assignmentsOf id ++ os.filterMap (·.recordFor (t.meetAll os) id) := by
  induction os generalizing t with
  | nil => exact (List.append_nil _).symm
  | cons o os ih =>
    obtain ⟨hs, hrest⟩ := inOrder_meet hos
    have hrun : t.meetAll (o :: os) = (t.meet o).meetAll os := rfl
    have hmeet := ht.meet_records hs
    rw [hrun, ih (ht.meet hs) hrest, List.filterMap_cons, Occurrence.recordFor]
    cases hassigned : o.node.assigned? with
    | none =>
      rw [hassigned] at hmeet
      obtain ⟨k, hk⟩ := hmeet
      have hsame : (t.meet o).assignmentsOf id = t.assignmentsOf id := by
        rw [assignmentsOf, hk, getD_padded]
        rfl
      rw [hsame]
      rfl
    | some a =>
      rw [hassigned] at hmeet
      obtain ⟨i, hlookup, hrecords⟩ := hmeet
      have hopen : o.scope < (t.meet o).scopes.length := by
        rw [length_meet]
        exact Nat.lt_add_right _ hs
      -- what comes behind makes the name stand for nothing else
      have hfinal := (ht.meet hs).lookup_meetAll hrest hopen hlookup
      rw [hrecords.assignmentsOf, Option.bind_some, hfinal, List.append_assoc]
      by_cases hi : i = id
      · simp [hi]
      · simp [hi]

/-- The records after a run are those before it and one for each assignment to a name. -/
theorem Sound.ledger_meetAll (ht : t.Sound) (hos : Node.InOrder t.scopes.length os) :
    (t.meetAll os).ledger.flatten.Perm
      (t.ledger.flatten ++ os.filterMap fun o => o.node.assigned?.map (·.2)) := by
  induction os generalizing t with
  | nil => exact (List.append_nil _).symm ▸ List.Perm.refl _
  | cons o os ih =>
    obtain ⟨hs, hrest⟩ := inOrder_meet hos
    have hmeet := ht.meet_records hs
    refine (ih (ht.meet hs) hrest).trans ?_
    rw [List.filterMap_cons]
    cases hassigned : o.node.assigned? with
    | none =>
      rw [hassigned] at hmeet
      obtain ⟨k, hk⟩ := hmeet
      simp [hk]
    | some a =>
      rw [hassigned] at hmeet
      obtain ⟨i, -, hrecords⟩ := hmeet
      refine (hrecords.perm.append_right _).trans ?_
      simp

theorem Sound.resolves_meetAll (ht : t.Sound) (hos : Node.InOrder t.scopes.length os) :
    ∀ o ∈ os, ∀ a, o.node.assigned? = some a →
      ∃ id, (t.meetAll os).lookup o.scope a.1 = some id := by
  induction os generalizing t with
  | nil => simp
  | cons o os ih =>
    obtain ⟨hs, hrest⟩ := inOrder_meet hos
    intro u hu a ha
    rcases List.mem_cons.1 hu with rfl | hu
    · have hmeet := ht.meet_records hs
      rw [ha] at hmeet
      obtain ⟨i, hlookup, -⟩ := hmeet
      have hopen : u.scope < (t.meet u).scopes.length := by
        rw [length_meet]
        exact Nat.lt_add_right _ hs
      exact ⟨i, (ht.meet hs).lookup_meetAll hrest hopen hlookup⟩
    · exact ih (ht.meet hs) hrest u hu a ha

end ScopeTree

namespace Node

open ScopeTree

theorem ledger_outermost (names : Names) (body : List Node) :
    ∃ k, (outermost names body).ledger = List.replicate k [] :=
  ledger_declareEach (.start names) 0 (bodyNames body)

/-- The records of a symbol are those of the assignments to names that stand for it, in the order
of binding. -/
theorem assignments_eq (names : Names) (body : List Node) {id : Nat} {x : ScriptSymbol}
    (hx : (scopes names body).symbols[id]? = some x) :
    x.assignments = (placedAll 0 0 1 body).filterMap (·.recordFor (scopes names body) id) := by
  obtain ⟨k, hledger⟩ := ledger_outermost names body
  have hrecords := (sound_outermost names body).assignmentsOf_meetAll (inOrder_body names body) id
  have hnone : (outermost names body).assignmentsOf id = [] := by
    rw [assignmentsOf, hledger]
    exact getD_padded [] k id
  have hown : (scopes names body).assignmentsOf id = x.assignments := by
    rw [assignmentsOf, ledger, List.getElem?_map, hx]
    rfl
  rwa [← scopes_eq, hnone, List.nil_append, hown] at hrecords

/-- Each assignment to a name is recorded once, and there are no other records.  It is recorded
on the symbol for which the name stands where the assignment stands, in the scopes as they are
when the whole script is bound; the records of a symbol are in the order of binding.  The
scopes are those of the script, its blocks and its functions, each where its node stands. -/
theorem assignments_resolved (names : Names) (body : List Node) :
    (scopes names body).frames =
      (.program, none) :: (placedAll 0 0 1 body).filterMap (·.frame?) ∧
    (∀ o ∈ placedAll 0 0 1 body, o.node.opensScope = true →
      (scopes names body).frames[o.opens]? = o.frame?) ∧
    ((placedAll 0 0 1 body).map (·.node)).Perm (preorderAll body) ∧
    ((scopes names body).symbols.flatMap (·.assignments)).Perm
      ((preorderAll body).filterMap fun n => n.assigned?.map (·.2)) ∧
    (∀ id x, (scopes names body).symbols[id]? = some x →
      x.assignments = (placedAll 0 0 1 body).filterMap (·.recordFor (scopes names body) id)) ∧
    ∀ o ∈ placedAll 0 0 1 body, ∀ name r, o.node.assigned? = some (name, r) →
      ∃ id x, (scopes names body).lookup o.scope name = some id ∧
        (scopes names body).symbols[id]? = some x ∧ x.name = name := by
  have hbefore := sound_outermost names body
  have horder := inOrder_body names body
  obtain ⟨k, hledger⟩ := ledger_outermost names body
  have hnodes := placedAll_perm_preorderAll 0 0 1 body
  refine ⟨frames_scopes names body, frames_scopes_opens names body, hnodes, ?_, ?_, ?_⟩
  · have hrecords := hbefore.ledger_meetAll horder
    rw [← scopes_eq, hledger, List.flatten_replicate_nil, List.nil_append] at hrecords
    have hmoved := hnodes.filterMap fun n => n.assigned?.map (·.2)
    rw [List.filterMap_map] at hmoved
    exact hrecords.trans hmoved
  · exact fun id x hx => assignments_eq names body hx
  · intro o ho name r hassigned
    obtain ⟨id, hid⟩ := hbefore.resolves_meetAll horder o ho _ hassigned
    rw [← scopes_eq] at hid
    obtain ⟨x, hx, hname⟩ := (sound_scopes names body).exists_symbol hid
    exact ⟨id, x, hid, hx, hname⟩

end Node
end ScriptOutline
