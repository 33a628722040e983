import ScriptOutline.Text.Cursor

/-!
The lines of a text, found again from byte offsets.
-/

namespace ScriptOutline

/-- The byte offset of the first character of each line. -/
structure Lines where
  starts : List Nat
deriving DecidableEq, Repr

namespace Lines

open Text

/-- The offsets behind each line break of characters that begin at `offset`. -/
def startsAfter (offset : Nat) : List Char → List Nat
  | [] => []
  | c :: cs =>
    let next := offset + c.utf8Size
    if endsLine c cs.head? then next :: startsAfter next cs else startsAfter next cs

def ofText (text : String) : Lines := { starts := 0 :: startsAfter 0 text.toList }

def count (l : Lines) : Nat := l.starts.length

/-- The line that holds a byte; offsets behind the text lie on the last line. -/
def lineOf (l : Lines) (offset : Nat) : Nat := l.starts.countP (· ≤ offset) - 1

def startOf (l : Lines) (line : Nat) : Nat := l.starts.getD line 0

/-- How many characters the first `bytes` bytes hold, if these end between two
characters. -/
def charactersIn : List Char → Nat → Option Nat
  | _, 0 => some 0
  | [], _ + 1 => none
  | c :: cs, bytes + 1 =>
    if c.utf8Size ≤ bytes + 1 then (charactersIn cs (bytes + 1 - c.utf8Size)).map (· + 1)
    else none

/-- The characters from byte `bytes` on. -/
def dropBytes : List Char → Nat → List Char
  | cs, 0 => cs
  | [], _ => []
  | c :: cs, bytes => dropBytes cs (bytes - c.utf8Size)

theorem length_dropBytes_le (cs : List Char) (bytes : Nat) :
    (dropBytes cs bytes).length ≤ cs.length := by
  fun_induction dropBytes cs bytes with
  | case1 => exact Nat.le_refl _
  | case2 => exact Nat.le_refl _
  | case3 bytes c cs _ ih => exact Nat.le_succ_of_le ih

/-- The characters that the first `bytes` bytes hold. -/
def takeBytes : List Char → Nat → List Char
  | [], _ => []
  | c :: cs, bytes =>
    if c.utf8Size ≤ bytes then c :: takeBytes cs (bytes - c.utf8Size) else []

/-- The position of a byte of the text that the lines were taken from.  Inside
a character the column counts bytes. -/
def positionOf (l : Lines) (text : String) (offset : Nat) : Position :=
  let line := l.lineOf offset
  let start := l.startOf line
  let bytes := min offset (byteLength text.toList) - start
  { line, column := (charactersIn (dropBytes text.toList start) bytes).getD bytes }

end Lines

end ScriptOutline
