import ScriptOutline.Script.Node

/-!
Walking over the nodes of a script in reading order.  Token trees are not
looked into.
-/

namespace ScriptOutline
namespace Node

mutual
def count : Node → Nat
  | block _ body => 1 + countAll body
  | declaration .. | returnNothing _ | reference .. | object .. | primitive .. | expression ..
  | skipped .. => 1
  | assignment _ _ _ value | returnValue _ value | instantiation _ value => 1 + count value
  | function _ _ body => 1 + countAll body
  | call _ _ arguments => 1 + countAll arguments
  | invocation _ _ arguments chain _ => 1 + countAll arguments + countAll chain
  | array _ elements => 1 + countAll elements
  | immediate _ _ body arguments => 1 + countAll body + countAll arguments

def countAll : List Node → Nat
  | [] => 0
  | n :: ns => count n + countAll ns
end

mutual
/-- The paths that are assigned, called or referred to. -/
def paths : Node → List SymbolPath
  | block _ body | function _ _ body => pathsAll body
  | declaration .. | returnNothing _ | object .. | primitive .. | expression .. | skipped .. => []
  | assignment _ target _ value => target :: paths value
  | returnValue _ value | instantiation _ value => paths value
  | call _ callee arguments => callee :: pathsAll arguments
  | reference _ path _ => path.toList
  | invocation _ path arguments chain _ => path.toList ++ pathsAll arguments ++ pathsAll chain
  | array _ elements => pathsAll elements
  | immediate _ _ body arguments => pathsAll body ++ pathsAll arguments

def pathsAll : List Node → List SymbolPath
  | [] => []
  | n :: ns => paths n ++ pathsAll ns
end

mutual
/-- The functions, each before those in its body. -/
def functions : Node → List FunctionHead
  | block _ body => functionsAll body
  | declaration .. | returnNothing _ | reference .. | object .. | primitive .. | expression ..
  | skipped .. => []
  | assignment _ _ _ value | returnValue _ value | instantiation _ value => functions value
  | function _ head body => head :: functionsAll body
  | call _ _ arguments => functionsAll arguments
  | invocation _ _ arguments chain _ => functionsAll arguments ++ functionsAll chain
  | array _ elements => functionsAll elements
  | immediate _ head body arguments => head :: (functionsAll body ++ functionsAll arguments)

def functionsAll : List Node → List FunctionHead
  | [] => []
  | n :: ns => functions n ++ functionsAll ns
end

end Node
end ScriptOutline
