import ScriptOutline.Diagnostic.Basic

/-!
A diagnostic as it is shown beside the source text.
-/

namespace ScriptOutline

/-- A remark on a stretch of the source. -/
structure CalloutLabel where
  offset : Nat
  length : Nat
  text : String
deriving DecidableEq, Repr

structure Callout where
  message : String
  code : String
  severity : Severity
  help : Option String := none
  labels : List CalloutLabel := []
  /-- Whether the source text is shown with it. -/
  withSource : Bool := false
deriving DecidableEq, Repr

/-- A diagnostic with a place labels it; one without names its file instead.
The source is shown if there is one, with a file and a place. -/
def Diagnostic.callout (d : Diagnostic) (source : Option String) : Callout :=
  let plain : Callout :=
    { message := d.text, code := d.message.code, severity := d.message.severity }
  match d.location with
  | some l =>
    { plain with
      labels :=
        [{ offset := l.span.start, length := l.span.length, text := "at " ++ l.position.text }]
      withSource := d.file.isSome && source.isSome }
  | none => { plain with help := d.file.map ("in " ++ ·) }

end ScriptOutline
