import ScriptOutline.Diagnostic.Basic
import ScriptOutline.Token.Basic

/-!
Parts of a script that were read without being understood.
-/

namespace ScriptOutline

inductive WarningCause where
  /-- A key in brackets is not a single string. -/
  | computedAccess
  /-- A construct was kept as tokens. -/
  | constructSkipped (keyword : String)
  /-- A value is the head of a larger expression. -/
  | incompleteExpression
deriving DecidableEq, Repr

namespace WarningCause

def message : WarningCause → Message
  | computedAccess => .computedAccess
  | constructSkipped _ => .constructSkipped
  | incompleteExpression => .incompleteExpression

def arguments : WarningCause → List String
  | constructSkipped keyword => [keyword]
  | _ => []

end WarningCause

structure Warning where
  cause : WarningCause
  location : Location
deriving DecidableEq, Repr

def Warning.toDiagnostic (w : Warning) : Diagnostic :=
  .located w.location w.cause.message w.cause.arguments

end ScriptOutline
