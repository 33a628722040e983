import ScriptOutline.Script.Node

/-!
Names declared with `var` belong to the whole function.  Hoisting writes a
script that way: each function body begins with its declarations.
-/

namespace ScriptOutline

/-- A name declared with `var`, with the comments before it. -/
structure Declared where
  comments : List Comment
  name : Token
deriving DecidableEq, Repr

namespace Declared

def toNode (d : Declared) : Node := .declaration d.comments .varWord d.name

/-- The first declaration of each name that is not among `known`. -/
def firsts (known : List String) : List Declared → List Declared
  | [] => []
  | d :: ds =>
    if known.contains d.name.value then firsts known ds
    else d :: firsts (d.name.value :: known) ds

theorem nodup_firsts (known : List String) (ds : List Declared) :
    ((firsts known ds).map (·.name.value)).Nodup ∧
      ∀ d ∈ firsts known ds, d.name.value ∉ known := by
  induction ds generalizing known with
  | nil => simp [firsts]
  | cons d ds ih =>
    unfold firsts
    split
    · exact ih known
    · next hd =>
      obtain ⟨hn, hk⟩ := ih (d.name.value :: known)
      simp only [List.contains_eq_mem, decide_eq_true_eq] at hd
      refine ⟨?_, ?_⟩
      · simp only [List.map_cons, List.nodup_cons]
        refine ⟨?_, hn⟩
        intro hm
        obtain ⟨e, he, hv⟩ := List.mem_map.1 hm
        exact hk e he (by simp [hv])
      · intro e he
        rcases List.mem_cons.1 he with rfl | he
        · exact hd
        · exact fun h => hk e he (List.mem_cons_of_mem _ h)

end Declared

namespace Node

mutual
/-- The names that a node declares with `var` in the function around it.
Functions inside it keep theirs to themselves. -/
def declared : Node → List Declared
  | declaration c .varWord name => [{ comments := c, name }]
  | declaration _ .letWord _ | function .. | returnNothing _ | reference .. | object ..
  | primitive .. | expression .. | skipped .. => []
  | block _ body => declaredAll body
  | assignment _ _ _ value | returnValue _ value | instantiation _ value => declared value
  | call _ _ arguments => declaredAll arguments
  | invocation _ _ arguments chain _ => declaredAll arguments ++ declaredAll chain
  | array _ elements => declaredAll elements
  | immediate _ _ _ arguments => declaredAll arguments

def declaredAll : List Node → List Declared
  | [] => []
  | n :: ns => declared n ++ declaredAll ns
end

def hoistedNames (body : List Node) : List Node :=
  (Declared.firsts [] (declaredAll body)).map Declared.toNode

mutual
/-- A node whose blocks declare nothing with `var` and whose functions are
hoisted. -/
def settle : Node → Node
  | block c body => block c (settleStatements body)
  | assignment c target operator value => assignment c target operator (settle value)
  | function c head body => function c head (hoistedNames body ++ settleStatements body)
  | returnValue c value => returnValue c (settle value)
  | call c callee arguments => call c callee (settleAll arguments)
  | invocation c path arguments chain tail =>
    invocation c path (settleAll arguments) (settleAll chain) tail
  | instantiation c value => instantiation c (settle value)
  | array c elements => array c (settleAll elements)
  | immediate c head body arguments =>
    immediate c head (hoistedNames body ++ settleStatements body) (settleAll arguments)
  | declaration c word name => declaration c word name
  | returnNothing c => returnNothing c
  | reference c path tail => reference c path tail
  | object c trees => object c trees
  | primitive c kind token => primitive c kind token
  | expression c trees => expression c trees
  | skipped c keyword trees => skipped c keyword trees

def settleAll : List Node → List Node
  | [] => []
  | n :: ns => settle n :: settleAll ns

/-- Statements without their `var` declarations. -/
def settleStatements : List Node → List Node
  | [] => []
  | declaration _ .varWord _ :: ns => settleStatements ns
  | n :: ns => settle n :: settleStatements ns
end

/-- A function body or script with its declarations in front, the first of
each name only. -/
def hoist (body : List Node) : List Node := hoistedNames body ++ settleStatements body

end Node
end ScriptOutline
