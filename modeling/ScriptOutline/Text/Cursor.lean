import ScriptOutline.Text.Character
import ScriptOutline.Text.Location

/-!
A place in a text with the characters that follow it.
-/

namespace ScriptOutline
namespace Text

def byteLength : List Char → Nat
  | [] => 0
  | c :: cs => c.utf8Size + byteLength cs

@[simp] theorem byteLength_append (cs ds : List Char) :
    byteLength (cs ++ ds) = byteLength cs + byteLength ds := by
  induction cs with
  | nil => simp [byteLength]
  | cons c cs ih => simp [byteLength, ih, Nat.add_assoc]

/-- Whether the line ends with `c` when `next` follows it.  A carriage return
before a line feed leaves the end of the line to the line feed. -/
def endsLine (c : Char) (next : Option Char) : Bool :=
  isLineBreak c && !(c == '\r' && next == some '\n')

end Text

/-- The characters still to read, and where the first of them stands. -/
structure Cursor where
  rest : List Char
  offset : Nat := 0
  position : Position := {}
deriving DecidableEq, Repr

namespace Cursor

open Text

def ofText (text : String) : Cursor := { rest := text.toList }

/-- Past one character; at the end nothing moves. -/
def step (c : Cursor) : Cursor :=
  match c.rest with
  | [] => c
  | ch :: rest =>
    { rest
      offset := c.offset + ch.utf8Size
      position :=
        if endsLine ch rest.head? then { line := c.position.line + 1 }
        else { c.position with column := c.position.column + 1 } }

def move (c : Cursor) : Nat → Cursor
  | 0 => c
  | n + 1 => c.step.move n

def locate (c later : Cursor) : Location :=
  { span := .between c.offset later.offset, position := c.position }

@[simp] theorem rest_step (c : Cursor) : c.step.rest = c.rest.tail := by
  unfold step
  split <;> simp_all

@[simp] theorem rest_move (c : Cursor) (n : Nat) : (c.move n).rest = c.rest.drop n := by
  induction n generalizing c with
  | zero => rfl
  | succ n ih => simp [move, ih]

/-- The end of the text in bytes, as seen from the cursor. -/
def reach (c : Cursor) : Nat := c.offset + byteLength c.rest

@[simp] theorem reach_step (c : Cursor) : c.step.reach = c.reach := by
  unfold step reach
  split <;> simp_all [byteLength, Nat.add_assoc]

/-- Moving keeps the end of the text where it is. -/
@[simp] theorem reach_move (c : Cursor) (n : Nat) : (c.move n).reach = c.reach := by
  induction n generalizing c with
  | zero => rfl
  | succ n ih => simp [move, ih]

end Cursor

end ScriptOutline
