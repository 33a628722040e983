/-
When the assignments to a symbol are recorded in reading order.

Records come in the order of binding, `Node.assignments_eq`.  That is reading order but for one
kind of node: the arguments of a function that is called where it stands are bound before its body
and read behind it.  So the records of a symbol are out of order exactly where such a function
assigns to it both in its body and in its arguments.
-/
import ScriptOutline.Proofs.Resolution
import ScriptOutline.Proofs.ScopeNest
import ScriptOutline.Proofs.Targets

namespace ScriptOutline

open Node

namespace Occurrence

/-- The nodes in the arguments of a function that is called where it stands, as they are
placed. -/
def argumentPlaces (o : Occurrence) : List Occurrence :=
  match o.node with
  | .immediate _ _ _ arguments =>
    placedAll o.scope o.home (o.opens - scopesInAll arguments) arguments
  | _ => []

def bodyPlaces (o : Occurrence) : List Occurrence :=
  match o.node with
  | .immediate _ _ body _ => placedAll o.opens o.opens (o.opens + 1) body
  | _ => []

def AssignsTo (t : ScopeTree) (id : Nat) (o : Occurrence) : Prop := (o.recordFor t id).isSome

/-- A function that is called where it stands, and assigns to the symbol `id` in its arguments as
in its body. -/
def AssignsInBoth (t : ScopeTree) (id : Nat) (o : Occurrence) : Prop :=
  (∃ u ∈ o.argumentPlaces, u.AssignsTo t id) ∧ ∃ v ∈ o.bodyPlaces, v.AssignsTo t id

/-- If both nodes assign to the symbol, the second one does so at a later place. -/
def InTurn (t : ScopeTree) (id : Nat) (u v : Occurrence) : Prop :=
  ∀ r, u.recordFor t id = some r → ∀ r', v.recordFor t id = some r' →
    r.position.before r'.position = true

end Occurrence

/-- If both nodes assign to names, the second one does so at a later place. -/
def Node.Earlier (n n' : Node) : Prop :=
  ∀ a, n.assigned? = some a → ∀ a', n'.assigned? = some a' →
    a.2.position.before a'.2.position = true

namespace Occurrence

variable {t : ScopeTree} {id : Nat} {o u v : Occurrence} {os us : List Occurrence}

theorem assigned_of_recordFor {r : AssignmentRecord} (h : o.recordFor t id = some r) :
    ∃ name, o.node.assigned? = some (name, r) := by
  obtain ⟨⟨name, r'⟩, hassigned, hr⟩ := Option.bind_eq_some_iff.1 h
  split at hr
  · cases hr
    exact ⟨name, hassigned⟩
  · cases hr

theorem inTurn_of_earlier (h : u.node.Earlier v.node) : u.InTurn t id v := by
  intro r hr r' hr'
  obtain ⟨name, hu⟩ := assigned_of_recordFor hr
  obtain ⟨name', hv⟩ := assigned_of_recordFor hr'
  exact h _ hu _ hv

/-- Against reading order two nodes are in turn only if they do not both assign. -/
theorem inTurn_iff_of_later (h : v.node.Earlier u.node) :
    u.InTurn t id v ↔ ¬ (u.AssignsTo t id ∧ v.AssignsTo t id) := by
  constructor
  · rintro hturn ⟨hu, hv⟩
    obtain ⟨r, hr⟩ := Option.isSome_iff_exists.1 hu
    obtain ⟨r', hr'⟩ := Option.isSome_iff_exists.1 hv
    exact Position.before_asymm (hturn r hr r' hr') (inTurn_of_earlier h r' hr' r hr)
  · intro hnot r hr r' hr'
    refine absurd ⟨?_, ?_⟩ hnot
    · exact Option.isSome_iff_exists.2 ⟨r, hr⟩
    · exact Option.isSome_iff_exists.2 ⟨r', hr'⟩

/-- Only a function that is called where it stands has arguments and a body to assign in. -/
theorem not_assignsInBoth (h : o.bodyPlaces = []) : ¬ o.AssignsInBoth t id := by
  rintro ⟨-, v, hv, -⟩
  rw [h] at hv
  cases hv

/-- Nodes in turn are those among which no function assigns in both. -/
def TurnsKept (t : ScopeTree) (id : Nat) (os : List Occurrence) : Prop :=
  os.Pairwise (InTurn t id) ↔ ∀ o ∈ os, ¬ o.AssignsInBoth t id

theorem TurnsKept.nil : TurnsKept t id [] := by simp [TurnsKept]

theorem TurnsKept.append (h : TurnsKept t id os) (h' : TurnsKept t id us)
    (hbetween : ∀ u ∈ os, ∀ v ∈ us, u.node.Earlier v.node) : TurnsKept t id (os ++ us) := by
  rw [TurnsKept] at h h'
  rw [TurnsKept, List.pairwise_append, List.forall_mem_append, h, h']
  exact ⟨fun hall => ⟨hall.1, hall.2.1⟩,
    fun hall => ⟨hall.1, hall.2, fun u hu v hv => inTurn_of_earlier (hbetween u hu v hv)⟩⟩

theorem TurnsKept.cons (hbody : o.bodyPlaces = []) (h : TurnsKept t id os)
    (hfirst : ∀ v ∈ os, o.node.Earlier v.node) : TurnsKept t id (o :: os) := by
  rw [TurnsKept] at h
  rw [TurnsKept, List.pairwise_cons, List.forall_mem_cons, h]
  exact ⟨fun hall => ⟨not_assignsInBoth hbody, hall.2⟩,
    fun hall => ⟨fun v hv => inTurn_of_earlier (hfirst v hv), hall.2⟩⟩

theorem TurnsKept.immediate (h : TurnsKept t id os) (h' : TurnsKept t id us)
    (harguments : o.argumentPlaces = os) (hbody : o.bodyPlaces = us)
    (hnone : o.node.assigned? = none) (hlater : ∀ u ∈ os, ∀ v ∈ us, v.node.Earlier u.node) :
    TurnsKept t id (os ++ o :: us) := by
  have hself (w : Occurrence) : o.InTurn t id w ∧ w.InTurn t id o := by
    have hnever (r : AssignmentRecord) : o.recordFor t id ≠ some r := fun hr => by
      obtain ⟨name, hassigned⟩ := assigned_of_recordFor hr
      rw [hnone] at hassigned
      cases hassigned
    exact ⟨fun r hr => absurd hr (hnever r), fun _ _ r hr => absurd hr (hnever r)⟩
  have hcrossing : (∀ u ∈ os, ∀ v ∈ us, u.InTurn t id v) ↔ ¬ o.AssignsInBoth t id := by
    rw [AssignsInBoth, harguments, hbody]
    constructor
    · rintro hturn ⟨⟨u, hu, hu'⟩, v, hv, hv'⟩
      exact (inTurn_iff_of_later (hlater u hu v hv)).1 (hturn u hu v hv) ⟨hu', hv'⟩
    · intro hnot u hu v hv
      refine (inTurn_iff_of_later (hlater u hu v hv)).2 fun hboth => hnot ?_
      exact ⟨⟨u, hu, hboth.1⟩, v, hv, hboth.2⟩
  rw [TurnsKept] at h h'
  rw [TurnsKept, List.pairwise_append, List.pairwise_cons, List.forall_mem_append,
    List.forall_mem_cons, h, h', ← hcrossing]
  constructor
  · rintro ⟨hos, ⟨-, hus⟩, hturn⟩
    exact ⟨hos, fun u hu v hv => hturn u hu v (List.mem_cons_of_mem _ hv), hus⟩
  · rintro ⟨hos, hturn, hus⟩
    refine ⟨hos, ⟨fun v _ => (hself v).1, hus⟩, fun u hu v hv => ?_⟩
    rcases List.mem_cons.1 hv with rfl | hv
    · exact (hself u).2
    · exact hturn u hu v hv

end Occurrence

namespace Node

open Occurrence

theorem node_mem_preorder {scope home next : Nat} {n : Node} {o : Occurrence}
    (h : o ∈ placed scope home next n) : o.node ∈ preorder n :=
  (placed_perm_preorder scope home next n).mem_iff.1 (List.mem_map_of_mem h)

theorem node_mem_preorderAll {scope home next : Nat} {ns : List Node} {o : Occurrence}
    (h : o ∈ placedAll scope home next ns) : o.node ∈ preorderAll ns :=
  (placedAll_perm_preorderAll scope home next ns).mem_iff.1 (List.mem_map_of_mem h)

mutual
theorem turnsKept_placed (t : ScopeTree) (id scope home next : Nat) (n : Node)
    (h : (preorder n).Pairwise Earlier) : TurnsKept t id (placed scope home next n) := by
  cases n with
  | declaration | returnNothing | reference | object | primitive | expression | skipped =>
    exact .cons rfl .nil (by simp)
  | assignment _ _ _ value | returnValue _ value | instantiation _ value =>
    obtain ⟨hfirst, hrest⟩ := List.pairwise_cons.1 h
    exact .cons rfl (turnsKept_placed t id _ _ _ value hrest)
      fun v hv => hfirst _ (node_mem_preorder hv)
  | block _ body | function _ _ body =>
    obtain ⟨hfirst, hrest⟩ := List.pairwise_cons.1 h
    exact .cons rfl (turnsKept_placedAll t id _ _ _ body hrest)
      fun v hv => hfirst _ (node_mem_preorderAll hv)
  | call _ _ arguments =>
    obtain ⟨hfirst, hrest⟩ := List.pairwise_cons.1 h
    exact .cons rfl (turnsKept_placedAll t id _ _ _ arguments hrest)
      fun v hv => hfirst _ (node_mem_preorderAll hv)
  | array _ elements =>
    obtain ⟨hfirst, hrest⟩ := List.pairwise_cons.1 h
    exact .cons rfl (turnsKept_placedAll t id _ _ _ elements hrest)
      fun v hv => hfirst _ (node_mem_preorderAll hv)
  | invocation _ _ arguments chain _ =>
    obtain ⟨hfirst, hrest⟩ := List.pairwise_cons.1 h
    obtain ⟨harguments, hchain, hbetween⟩ := List.pairwise_append.1 hrest
    refine .cons rfl (.append (turnsKept_placedAll t id _ _ _ arguments harguments)
      (turnsKept_placedAll t id _ _ _ chain hchain) fun u hu v hv => ?_) fun v hv => hfirst _ ?_
    · exact hbetween _ (node_mem_preorderAll hu) _ (node_mem_preorderAll hv)
    · exact List.mem_append.2
        ((List.mem_append.1 hv).imp node_mem_preorderAll node_mem_preorderAll)
  | immediate c head body arguments =>
    obtain ⟨-, hrest⟩ := List.pairwise_cons.1 h
    obtain ⟨hbody, harguments, hbetween⟩ := List.pairwise_append.1 hrest
    refine .immediate (turnsKept_placedAll t id _ _ _ arguments harguments)
      (turnsKept_placedAll t id _ _ _ body hbody) ?_ rfl rfl fun u hu v hv => ?_
    · simp only [argumentPlaces, countP_placedAll, Nat.add_sub_cancel]
    · exact hbetween _ (node_mem_preorderAll hv) _ (node_mem_preorderAll hu)

/-- Among nodes that are read in order, those that are bound are in turn unless a function assigns
in both its arguments and its body. -/
theorem turnsKept_placedAll (t : ScopeTree) (id scope home next : Nat) (ns : List Node)
    (h : (preorderAll ns).Pairwise Earlier) : TurnsKept t id (placedAll scope home next ns) := by
  cases ns with
  | nil => exact .nil
  | cons n ns =>
    obtain ⟨hfirst, hrest, hbetween⟩ := List.pairwise_append.1 h
    exact .append (turnsKept_placed t id _ _ _ n hfirst) (turnsKept_placedAll t id _ _ _ ns hrest)
      fun u hu v hv => hbetween _ (node_mem_preorder hu) _ (node_mem_preorderAll hv)
end

theorem target_of_assigned {n : Node} {a : String × AssignmentRecord} (h : n.assigned? = some a) :
    ∃ t, n.target? = some t ∧ a.2.position = t.location.position := by
  cases n with
  | assignment _ target operator value =>
    obtain ⟨name, -, rfl⟩ := Option.map_eq_some_iff.1 h
    exact ⟨target.root, rfl, rfl⟩
  | _ => cases h

end Node

theorem Script.pairwise_earlier [IdentifierTable] {text : String} {s : Script}
    (h : ofText text = .ok s) :
    (preorderAll s.body).Pairwise Earlier := by
  refine (List.pairwise_filterMap.1 (targets_in_order h)).imp fun {n n'} hlater a ha a' ha' => ?_
  obtain ⟨u, hu, hposition⟩ := target_of_assigned ha
  obtain ⟨v, hv, hposition'⟩ := target_of_assigned ha'
  rw [hposition, hposition']
  exact hlater u hu v hv

/-- The assignments to a symbol are recorded in reading order exactly if no function that is called
where it stands assigns to that symbol both in its arguments and in its body. -/
theorem Script.assignments_in_order_iff [IdentifierTable] {text : String} {s : Script}
    (h : ofText text = .ok s) (names : Names) {id : Nat} {x : ScriptSymbol}
    (hx : (scopes names s.body).symbols[id]? = some x) :
    (x.assignments.map (·.position)).Pairwise (fun p q => p.before q = true) ↔
      ∀ o ∈ placedAll 0 0 1 s.body, ¬ o.AssignsInBoth (scopes names s.body) id := by
  rw [assignments_eq names s.body hx, List.pairwise_map, List.pairwise_filterMap]
  exact turnsKept_placedAll (scopes names s.body) id 0 0 1 s.body (pairwise_earlier h)

/-- The assignment in the argument is read behind the one in the body and recorded before it. -/
theorem Script.assignments_out_of_order :
    ∃ s x, ofText "var x; (function () \x7b x = 1; \x7d)(x = 2);" = .ok s ∧
      (scopes {} s.body).symbols[0]? = some x ∧
      x.assignments.map (·.position) = [⟨0, 32⟩, ⟨0, 22⟩] ∧
      ((x.assignments.map (·.position)).Pairwise (fun p q => p.before q = true) ↔
        ∀ o ∈ placedAll 0 0 1 s.body, ¬ o.AssignsInBoth (scopes {} s.body) 0) ∧
      ∃ o ∈ placedAll 0 0 1 s.body, o.AssignsInBoth (scopes {} s.body) 0 := by
  have hfull : (ofText "var x; (function () \x7b x = 1; \x7d)(x = 2);").toOption.any (fun s =>
      ((scopes {} s.body).symbols[0]?.map fun x => x.assignments.map (·.position)) ==
        some [⟨0, 32⟩, ⟨0, 22⟩]) = true := by
    decide +kernel
  obtain ⟨s, hs, hpositions⟩ := exists_of_any hfull
  obtain ⟨x, hx, hpositions⟩ := Option.map_eq_some_iff.1 (eq_of_beq hpositions)
  have hiff := assignments_in_order_iff hs {} hx
  refine ⟨s, x, hs, hx, hpositions, hiff, ?_⟩
  -- the two positions are the wrong way round
  have hnot : ¬ (x.assignments.map (·.position)).Pairwise (fun p q => p.before q = true) := by
    rw [hpositions]
    decide
  simpa using mt hiff.2 hnot

end ScriptOutline
