/-
The form of a hoisted script.

Hoisting leaves nothing to hoist and takes nothing away but declarations with `var`.  What it
makes of a body is said of the nodes `within` that body, those outside the functions in it, and
the bodies of these functions are hoisted bodies themselves.
-/
import ScriptOutline.Proofs.Hoisting
import ScriptOutline.Proofs.Warnings

namespace ScriptOutline

namespace Declared

theorem firsts_of_nodup {known : List String} {ds : List Declared}
    (hn : (ds.map (·.name.value)).Nodup) (hk : ∀ d ∈ ds, d.name.value ∉ known) :
    firsts known ds = ds := by
  induction ds generalizing known with
  | nil => rfl
  | cons d ds ih =>
    obtain ⟨hd, hds⟩ := List.forall_mem_cons.1 hk
    rw [List.map_cons, List.nodup_cons] at hn
    have hnot : known.contains d.name.value = false := by simpa using hd
    rw [firsts, hnot]
    refine congrArg (d :: ·) (ih hn.2 fun e he => ?_)
    rw [List.mem_cons, not_or]
    exact ⟨fun hsame => hn.1 (hsame ▸ List.mem_map_of_mem he), hds e he⟩

theorem firsts_firsts (ds : List Declared) : firsts [] (firsts [] ds) = firsts [] ds :=
  firsts_of_nodup (nodup_firsts [] ds).1 (nodup_firsts [] ds).2

/-- The names of the first declarations are those that are declared, in order. -/
theorem names_firsts (known : List String) (ds : List Declared) :
    (firsts known ds).map (·.name.value) =
      ((ds.map (·.name.value)).filter (!known.contains ·)).eraseDups := by
  induction ds generalizing known with
  | nil => rfl
  | cons d ds ih =>
    rw [firsts, List.map_cons, List.filter_cons]
    by_cases hd : known.contains d.name.value = true
    · simp only [hd, if_true, Bool.not_true, Bool.false_eq_true, if_false]
      exact ih known
    · simp only [hd, if_false, Bool.false_eq_true, Bool.not_false, if_true, List.map_cons,
        List.eraseDups_cons, ih, List.filter_filter]
      refine congrArg (fun names => d.name.value :: List.eraseDups names) (List.filter_congr ?_)
      intro name _
      rw [List.contains_cons, Bool.not_or]

/-- Each is the first of its name. -/
theorem find?_of_mem_firsts {known : List String} {ds : List Declared} {d : Declared}
    (h : d ∈ firsts known ds) : ds.find? (·.name.value == d.name.value) = some d := by
  induction ds generalizing known with
  | nil => cases h
  | cons e ds ih =>
    have hnot : ∀ {known : List String}, d ∈ firsts known ds → e.name.value ∈ known →
        (e.name.value == d.name.value) = false := by
      intro known hd he
      rw [beq_eq_false_iff_ne]
      intro hsame
      exact (nodup_firsts known ds).2 d hd (hsame ▸ he)
    rw [firsts] at h
    split at h
    · rename_i he
      rw [List.find?_cons, hnot h (List.contains_iff_mem.1 he)]
      exact ih h
    · rcases List.mem_cons.1 h with rfl | h
      · simp
      · rw [List.find?_cons, hnot h List.mem_cons_self]
        exact ih h

end Declared

namespace Node

theorem isVar_settle (n : Node) : (settle n).isVar = n.isVar := by
  cases n <;> rfl

theorem settleStatements_append (ms ns : List Node) :
    settleStatements (ms ++ ns) = settleStatements ms ++ settleStatements ns := by
  induction ms with
  | nil => rfl
  | cons m ms ih =>
    rw [List.cons_append, settleStatements_cons, settleStatements_cons, ih]
    split <;> rfl

theorem settleStatements_toNode (ds : List Declared) :
    settleStatements (ds.map Declared.toNode) = [] := by
  induction ds with
  | nil => rfl
  | cons d ds ih => exact ih

/-- What is settled and stays so makes a hoisted body that stays so. -/
theorem hoist_hoist_of_settled {body : List Node} (h : ShapedAll .statement body)
    (hsettled : settleStatements (settleStatements body) = settleStatements body) :
    hoist (hoist body) = hoist body := by
  have hnames : hoistedNames (hoist body) = hoistedNames body := by
    rw [hoistedNames, declaredAll_hoist h, Declared.firsts_firsts, hoistedNames]
  have hrest : settleStatements (hoist body) = settleStatements body := by
    rw [hoist, settleStatements_append, hoistedNames, settleStatements_toNode, hsettled,
      List.nil_append]
  rw [hoist, hnames, hrest, hoist]

mutual
theorem settle_settle {role : Role} {n : Node} (h : n.Shaped role) :
    settle (settle n) = settle n := by
  cases n with
  | declaration | returnNothing | reference | object | primitive | expression | skipped => rfl
  | block c body => exact congrArg (block c) (settleStatements_settled h.2)
  | function c head body =>
    exact congrArg (function c head) (hoist_hoist_of_settled h.2.2 (settleStatements_settled h.2.2))
  | immediate c head body arguments =>
    exact congrArg₂ (immediate c head)
      (hoist_hoist_of_settled h.2.2.1 (settleStatements_settled h.2.2.1))
      (settleAll_settled h.2.2.2)
  | assignment c target operator value =>
    exact congrArg (assignment c target operator) (settle_settle h.2.2.2)
  | returnValue c value => exact congrArg (returnValue c) (settle_settle h.2)
  | instantiation c value => exact congrArg (instantiation c) (settle_settle h.2)
  | call c callee arguments => exact congrArg (call c callee) (settleAll_settled h.2.2)
  | array c elements => exact congrArg (array c) (settleAll_settled h.2)
  | invocation c path arguments chain tail =>
    exact congrArg₂ (invocation c path · · tail) (settleAll_settled h.2.1)
      (settleAll_settled h.2.2.1)

theorem settleAll_settled {role : Role} {ns : List Node} (h : ShapedAll role ns) :
    settleAll (settleAll ns) = settleAll ns := by
  cases ns with
  | nil => rfl
  | cons n ns => exact congrArg₂ (· :: ·) (settle_settle h.1) (settleAll_settled h.2)

theorem settleStatements_settled {ns : List Node} (h : ShapedAll .statement ns) :
    settleStatements (settleStatements ns) = settleStatements ns := by
  cases ns with
  | nil => rfl
  | cons n ns =>
    have hrest := settleStatements_settled h.2
    rw [settleStatements_cons]
    split
    · exact hrest
    · next hn =>
      rw [settleStatements_cons, isVar_settle, if_neg hn, settle_settle h.1, hrest]
end

theorem hoist_hoist {body : List Node} (h : ShapedAll .statement body) :
    hoist (hoist body) = hoist body :=
  hoist_hoist_of_settled h (settleStatements_settled h)

def var? : Node → Option Declared
  | declaration comments .varWord name => some { comments, name }
  | _ => none

mutual
/-- A node and the nodes in it, each before those in it, but not those in the bodies of
functions. -/
def within : Node → List Node
  | block comments body => block comments body :: withinAll body
  | declaration comments word name => [declaration comments word name]
  | assignment comments target operator value =>
    assignment comments target operator value :: within value
  | function comments head body => [function comments head body]
  | returnNothing comments => [returnNothing comments]
  | returnValue comments value => returnValue comments value :: within value
  | call comments callee arguments => call comments callee arguments :: withinAll arguments
  | reference comments path tail => [reference comments path tail]
  | invocation comments path arguments chain tail =>
    invocation comments path arguments chain tail :: (withinAll arguments ++ withinAll chain)
  | instantiation comments value => instantiation comments value :: within value
  | array comments elements => array comments elements :: withinAll elements
  | object comments trees => [object comments trees]
  | primitive comments kind token => [primitive comments kind token]
  | expression comments trees => [expression comments trees]
  | immediate comments head body arguments =>
    immediate comments head body arguments :: withinAll arguments
  | skipped comments keyword trees => [skipped comments keyword trees]

def withinAll : List Node → List Node
  | [] => []
  | n :: ns => within n ++ withinAll ns
end

def vars (body : List Node) : List Declared := (withinAll body).filterMap var?

mutual
theorem vars_within (n : Node) : (within n).filterMap var? = declared n := by
  cases n with
  | declaration _ word _ => cases word <;> rfl
  | function | returnNothing | reference | object | primitive | expression | skipped => rfl
  | block _ body => exact vars_eq body
  | assignment _ _ _ value | returnValue _ value | instantiation _ value => exact vars_within value
  | call _ _ arguments => exact vars_eq arguments
  | array _ elements => exact vars_eq elements
  | immediate _ _ _ arguments => exact vars_eq arguments
  | invocation _ _ arguments chain _ =>
    rw [declared, ← vars_eq arguments, ← vars_eq chain, vars, vars, ← List.filterMap_append]
    rfl

/-- They are what is gathered when a body is hoisted. -/
theorem vars_eq (body : List Node) : vars body = declaredAll body := by
  cases body with
  | nil => rfl
  | cons n ns =>
    rw [vars, withinAll, List.filterMap_append, vars_within n, declaredAll, ← vars_eq ns, vars]
end

/-- The declarations with `var` stand in front, the first of each name that has one in the
body, with its comments, in the order of their names there; and nowhere else. -/
def VarsLead (body hoisted : List Node) : Prop :=
  ∃ (ds : List Declared) (rest : List Node), hoisted = ds.map Declared.toNode ++ rest ∧
    (ds.map (·.name.value)).Nodup ∧
    ds.map (·.name.value) = ((vars body).map (·.name.value)).eraseDups ∧
    (∀ d ∈ ds, (vars body).find? (·.name.value == d.name.value) = some d) ∧
    vars rest = []

theorem varsLead_hoist {body : List Node} (h : ShapedAll .statement body) :
    VarsLead body (hoist body) := by
  refine ⟨Declared.firsts [] (declaredAll body), settleStatements body, rfl,
    (Declared.nodup_firsts [] _).1, ?_, fun d hd => ?_, ?_⟩
  · rw [vars_eq, Declared.names_firsts]
    simp
  · rw [vars_eq]
    exact Declared.find?_of_mem_firsts hd
  · rw [vars_eq, declaredAll_settleStatements h]

def functionBody? : Node → Option (List Node)
  | function _ _ body | immediate _ _ body _ => some body
  | _ => none

def functionBodies (ns : List Node) : List (List Node) := (preorderAll ns).filterMap functionBody?

theorem functionBodies_append (ms ns : List Node) :
    functionBodies (ms ++ ns) = functionBodies ms ++ functionBodies ns := by
  rw [functionBodies, preorderAll_append, List.filterMap_append]
  rfl

theorem functionBodies_toNode (ds : List Declared) :
    functionBodies (ds.map Declared.toNode) = [] := by
  induction ds with
  | nil => rfl
  | cons d ds ih => exact ih

theorem functionBodies_hoist_of_settled {body : List Node}
    (h : functionBodies (settleStatements body) = (functionBodies body).map hoist) :
    functionBodies (hoist body) = (functionBodies body).map hoist := by
  rw [hoist, functionBodies_append, hoistedNames, functionBodies_toNode, h, List.nil_append]

/-- The functions of two lists of nodes are hoisted if those of each are. -/
theorem functionBodies_both {ms ms' ns ns' : List Node}
    (hms : ms'.filterMap functionBody? = (ms.filterMap functionBody?).map hoist)
    (hns : ns'.filterMap functionBody? = (ns.filterMap functionBody?).map hoist) :
    (ms' ++ ns').filterMap functionBody? = ((ms ++ ns).filterMap functionBody?).map hoist := by
  rw [List.filterMap_append, List.filterMap_append, List.map_append, hms, hns]

mutual
theorem functionBodies_settle (n : Node) :
    (preorder (settle n)).filterMap functionBody? =
      ((preorder n).filterMap functionBody?).map hoist := by
  cases n with
  | declaration | returnNothing | reference | object | primitive | expression | skipped => rfl
  | block _ body => exact functionBodies_settleStatements body
  | function c head body =>
    have hbody := functionBodies_hoist_of_settled (functionBodies_settleStatements body)
    exact congrArg (hoist body :: ·) hbody
  | assignment _ _ _ value | returnValue _ value | instantiation _ value =>
    exact functionBodies_settle value
  | call _ _ arguments => exact functionBodies_settleAll arguments
  | array _ elements => exact functionBodies_settleAll elements
  | invocation _ _ arguments chain _ =>
    exact functionBodies_both (functionBodies_settleAll arguments) (functionBodies_settleAll chain)
  | immediate c head body arguments =>
    have hbody := functionBodies_hoist_of_settled (functionBodies_settleStatements body)
    exact congrArg (hoist body :: ·)
      (functionBodies_both hbody (functionBodies_settleAll arguments))

theorem functionBodies_settleAll (ns : List Node) :
    functionBodies (settleAll ns) = (functionBodies ns).map hoist := by
  cases ns with
  | nil => rfl
  | cons n ns => exact functionBodies_both (functionBodies_settle n) (functionBodies_settleAll ns)

theorem functionBodies_settleStatements (ns : List Node) :
    functionBodies (settleStatements ns) = (functionBodies ns).map hoist := by
  cases ns with
  | nil => rfl
  | cons n ns =>
    have hrest := functionBodies_settleStatements ns
    rw [settleStatements_cons]
    split
    · next hvar =>
      cases n with
      | declaration => exact hrest
      | _ => cases hvar
    · exact functionBodies_both (functionBodies_settle n) hrest
end

theorem functionBodies_hoist (body : List Node) :
    functionBodies (hoist body) = (functionBodies body).map hoist :=
  functionBodies_hoist_of_settled (functionBodies_settleStatements body)

mutual
theorem Shaped.preorder {role : Role} {n : Node} (h : n.Shaped role) :
    ∀ m ∈ n.preorder, ∃ role, m.Shaped role := by
  cases n with
  | declaration | returnNothing | reference | object | primitive | expression | skipped =>
    exact List.forall_mem_singleton.2 ⟨role, h⟩
  | block => exact List.forall_mem_cons.2 ⟨⟨role, h⟩, ShapedAll.preorder h.2⟩
  | function => exact List.forall_mem_cons.2 ⟨⟨role, h⟩, ShapedAll.preorder h.2.2⟩
  | assignment => exact List.forall_mem_cons.2 ⟨⟨role, h⟩, Shaped.preorder h.2.2.2⟩
  | returnValue | instantiation => exact List.forall_mem_cons.2 ⟨⟨role, h⟩, Shaped.preorder h.2⟩
  | call => exact List.forall_mem_cons.2 ⟨⟨role, h⟩, ShapedAll.preorder h.2.2⟩
  | array => exact List.forall_mem_cons.2 ⟨⟨role, h⟩, ShapedAll.preorder h.2⟩
  | invocation =>
    exact List.forall_mem_cons.2 ⟨⟨role, h⟩, List.forall_mem_append.2
      ⟨ShapedAll.preorder h.2.1, ShapedAll.preorder h.2.2.1⟩⟩
  | immediate =>
    exact List.forall_mem_cons.2 ⟨⟨role, h⟩, List.forall_mem_append.2
      ⟨ShapedAll.preorder h.2.2.1, ShapedAll.preorder h.2.2.2⟩⟩

theorem ShapedAll.preorder {role : Role} {ns : List Node} (h : ShapedAll role ns) :
    ∀ m ∈ preorderAll ns, ∃ role, m.Shaped role := by
  cases ns with
  | nil => exact List.forall_mem_nil _
  | cons n ns =>
    exact List.forall_mem_append.2 ⟨Shaped.preorder h.1, ShapedAll.preorder h.2⟩
end

theorem shaped_functionBodies {role : Role} {ns : List Node} (h : ShapedAll role ns) :
    ∀ body ∈ functionBodies ns, ShapedAll .statement body := by
  intro body hbody
  obtain ⟨n, hn, hbody⟩ := List.mem_filterMap.1 hbody
  obtain ⟨role, hshaped⟩ := ShapedAll.preorder h n hn
  cases n with
  | function _ _ body =>
    cases hbody
    exact hshaped.2.2
  | immediate _ _ body _ =>
    cases hbody
    exact hshaped.2.2.1
  | _ => cases hbody

mutual
def withoutVars : Node → Node
  | block c body => block c (withoutVarsAll body)
  | assignment c target operator value => assignment c target operator (withoutVars value)
  | function c head body => function c head (withoutVarsAll body)
  | returnValue c value => returnValue c (withoutVars value)
  | call c callee arguments => call c callee (withoutVarsAll arguments)
  | invocation c path arguments chain tail =>
    invocation c path (withoutVarsAll arguments) (withoutVarsAll chain) tail
  | instantiation c value => instantiation c (withoutVars value)
  | array c elements => array c (withoutVarsAll elements)
  | immediate c head body arguments =>
    immediate c head (withoutVarsAll body) (withoutVarsAll arguments)
  | declaration c word name => declaration c word name
  | returnNothing c => returnNothing c
  | reference c path tail => reference c path tail
  | object c trees => object c trees
  | primitive c kind token => primitive c kind token
  | expression c trees => expression c trees
  | skipped c keyword trees => skipped c keyword trees

def withoutVarsAll : List Node → List Node
  | [] => []
  | n :: ns => if n.isVar then withoutVarsAll ns else withoutVars n :: withoutVarsAll ns
end

theorem withoutVarsAll_append (ms ns : List Node) :
    withoutVarsAll (ms ++ ns) = withoutVarsAll ms ++ withoutVarsAll ns := by
  induction ms with
  | nil => rfl
  | cons m ms ih =>
    rw [List.cons_append, withoutVarsAll, withoutVarsAll, ih]
    split <;> rfl

theorem withoutVarsAll_toNode (ds : List Declared) :
    withoutVarsAll (ds.map Declared.toNode) = [] := by
  induction ds with
  | nil => rfl
  | cons d ds ih => exact ih

theorem withoutVars_hoist_of_settled {body : List Node}
    (h : withoutVarsAll (settleStatements body) = withoutVarsAll body) :
    withoutVarsAll (hoist body) = withoutVarsAll body := by
  rw [hoist, withoutVarsAll_append, hoistedNames, withoutVarsAll_toNode, h, List.nil_append]

mutual
theorem withoutVars_settle (n : Node) : withoutVars (settle n) = withoutVars n := by
  cases n with
  | declaration | returnNothing | reference | object | primitive | expression | skipped => rfl
  | block c body => exact congrArg (block c) (withoutVars_settleStatements body)
  | function c head body =>
    exact congrArg (function c head)
      (withoutVars_hoist_of_settled (withoutVars_settleStatements body))
  | immediate c head body arguments =>
    exact congrArg₂ (immediate c head)
      (withoutVars_hoist_of_settled (withoutVars_settleStatements body))
      (withoutVars_settleAll arguments)
  | assignment c target operator value =>
    exact congrArg (assignment c target operator) (withoutVars_settle value)
  | returnValue c value => exact congrArg (returnValue c) (withoutVars_settle value)
  | instantiation c value => exact congrArg (instantiation c) (withoutVars_settle value)
  | call c callee arguments => exact congrArg (call c callee) (withoutVars_settleAll arguments)
  | array c elements => exact congrArg (array c) (withoutVars_settleAll elements)
  | invocation c path arguments chain tail =>
    exact congrArg₂ (invocation c path · · tail) (withoutVars_settleAll arguments)
      (withoutVars_settleAll chain)

theorem withoutVars_settleAll (ns : List Node) :
    withoutVarsAll (settleAll ns) = withoutVarsAll ns := by
  cases ns with
  | nil => rfl
  | cons n ns =>
    rw [settleAll, withoutVarsAll, withoutVarsAll, isVar_settle, withoutVars_settle n,
      withoutVars_settleAll ns]

theorem withoutVars_settleStatements (ns : List Node) :
    withoutVarsAll (settleStatements ns) = withoutVarsAll ns := by
  cases ns with
  | nil => rfl
  | cons n ns =>
    have hrest := withoutVars_settleStatements ns
    rw [settleStatements_cons, withoutVarsAll]
    split
    · exact hrest
    · next hn => rw [withoutVarsAll, isVar_settle, if_neg hn, withoutVars_settle n, hrest]
end

/-- In a hoisted body and in the body of every function in it the declarations lead. -/
theorem varsLead_functionBodies {body : List Node} (h : ShapedAll .statement body) :
    List.Forall₂ VarsLead (body :: functionBodies body)
      (hoist body :: functionBodies (hoist body)) := by
  rw [functionBodies_hoist]
  refine .cons (varsLead_hoist h) (List.forall₂_map_right_iff.2 (List.forall₂_same.2 ?_))
  intro inner hinner
  exact varsLead_hoist (shaped_functionBodies h inner hinner)

theorem withoutVars_hoist (body : List Node) :
    withoutVarsAll (hoist body) = withoutVarsAll body :=
  withoutVars_hoist_of_settled (withoutVars_settleStatements body)

end Node

open Node

/-- Hoisting brings a script, or the body of a function in it, in a form of which no more can be
hoisted.  In it the declarations with `var` lead the body and those of all functions in it, and
all else is as it was. -/
theorem Script.hoisted_form {feed : TokenFeed} {s : Script} (h : ofFeed feed = .ok s) :
    ∀ body ∈ s.body :: functionBodies s.body,
      hoist (hoist body) = hoist body ∧
      List.Forall₂ VarsLead (body :: functionBodies body)
        (hoist body :: functionBodies (hoist body)) ∧
      withoutVarsAll (hoist body) = withoutVarsAll body := by
  have hshaped := shaped_ofFeed h
  intro body hbody
  have hstatements : ShapedAll .statement body := by
    rcases List.mem_cons.1 hbody with rfl | hinner
    · exact hshaped
    · exact shaped_functionBodies hshaped body hinner
  exact ⟨hoist_hoist hstatements, varsLead_functionBodies hstatements, withoutVars_hoist body⟩

/-- A name that is declared in two blocks, and a function with a comment before its
declaration. -/
theorem Script.hoisted_form_blocks :
    ∃ s, ofFeed (.ofText
        "f(function () \x7b b(); /* c */ var d \x7d); \x7b var e \x7d \x7b let d; var f, e \x7d") =
          .ok s ∧
      s.body.length = 3 ∧ (hoist s.body).length = 5 ∧ (functionBodies s.body).length = 1 ∧
      ∀ body ∈ s.body :: functionBodies s.body,
        hoist (hoist body) = hoist body ∧
        List.Forall₂ VarsLead (body :: functionBodies body)
          (hoist body :: functionBodies (hoist body)) ∧
        withoutVarsAll (hoist body) = withoutVarsAll body := by
  have hfull : (ofFeed (.ofText
        "f(function () \x7b b(); /* c */ var d \x7d); \x7b var e \x7d \x7b let d; var f, e \x7d")
          ).toOption.any (fun s => s.body.length == 3 && (hoist s.body).length == 5 &&
            (functionBodies s.body).length == 1) = true := by
    decide +kernel
  obtain ⟨s, hs, hlengths⟩ := exists_of_any hfull
  simp only [Bool.and_eq_true, beq_iff_eq] at hlengths
  obtain ⟨⟨hbody, hhoisted⟩, hfunctions⟩ := hlengths
  exact ⟨s, hs, hbody, hhoisted, hfunctions, hoisted_form hs⟩

end ScriptOutline
