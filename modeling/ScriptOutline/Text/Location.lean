/-
Where things stand in a text.  Offsets and lengths are UTF-8 bytes, lines and
columns count from zero, and a column counts characters.
-/

namespace ScriptOutline

/-- A stretch of text by its first byte and its length. -/
structure Span where
  start : Nat := 0
  length : Nat := 0
deriving DecidableEq, Repr, Inhabited

namespace Span

def stop (s : Span) : Nat := s.start + s.length

def empty (offset : Nat) : Span := { start := offset }

def between (start stop : Nat) : Span := { start, length := stop - start }

def isEmpty (s : Span) : Bool := s.length == 0

/-- The least span that covers both, the gap between them included. -/
def union (s t : Span) : Span :=
  between (min s.start t.start) (max s.stop t.stop)

def text (s : Span) : String := toString s.start ++ ".." ++ toString s.stop

@[simp] theorem stop_empty (offset : Nat) : (empty offset).stop = offset := rfl

theorem stop_between {start stop : Nat} (h : start ≤ stop) :
    (between start stop).stop = stop := by
  simp only [between, Span.stop]
  omega

theorem between_start_stop (s : Span) : between s.start s.stop = s := by
  cases s
  simp [between, stop]

end Span

/-- A line and a column, both from zero. -/
structure Position where
  line : Nat := 0
  column : Nat := 0
deriving DecidableEq, Repr, Inhabited

namespace Position

/-- Readers of messages count from one. -/
def text (p : Position) : String :=
  toString (p.line + 1) ++ ":" ++ toString (p.column + 1)

def before (p q : Position) : Bool :=
  p.line < q.line || (p.line == q.line && p.column < q.column)

end Position

structure Location where
  span : Span := {}
  position : Position := {}
deriving DecidableEq, Repr, Inhabited

namespace Location

/-- The empty stretch in front of a location. -/
def front (l : Location) : Location :=
  { span := .empty l.span.start, position := l.position }

/-- The empty stretch behind a location, still at the position of its first
character. -/
def back (l : Location) : Location :=
  { span := .empty l.span.stop, position := l.position }

end Location

end ScriptOutline
