import ScriptOutline.Text.Identifier
import ScriptOutline.Text.Lines

/-!
How far literals reach.  Each function looks at the characters from the
literal on and says how many of them belong to it.
-/

namespace ScriptOutline
namespace Literal

open Text

def isDigitOrBar (c : Char) : Bool := isDigit c || c == '_'

def isHexDigitOrBar (c : Char) : Bool := isHexDigit c || c == '_'

/-- The letters that follow a zero to choose another base. -/
def isBaseLetter (c : Char) : Bool := ['x', 'X', 'o', 'O', 'b', 'B'].contains c

def fractionLength : List Char → Nat
  | '.' :: cs => 1 + runLength isDigitOrBar cs
  | _ => 0

/-- An exponent counts only if a digit follows its letter and sign. -/
def exponentLength : List Char → Nat
  | [] => 0
  | e :: cs =>
    if e == 'e' || e == 'E' then
      let sign := if cs.head? == some '+' || cs.head? == some '-' then 1 else 0
      let digits := runLength isDigit (cs.drop sign)
      if digits == 0 then 0 else 1 + sign + digits
    else 0

def decimalLength (cs : List Char) : Nat :=
  let whole := runLength isDigitOrBar cs
  let fraction := fractionLength (cs.drop whole)
  whole + fraction + exponentLength (cs.drop (whole + fraction))

/-- A number in another base takes every hexadecimal digit behind its letter,
whatever the base. -/
def numberLength : List Char → Nat
  | '0' :: c :: cs =>
    if isBaseLetter c then 2 + runLength isHexDigitOrBar cs else decimalLength ('0' :: c :: cs)
  | cs => decimalLength cs

/-- The stretch of a literal behind its opening mark, and whether it is
closed. -/
structure Extent where
  length : Nat
  closed : Bool
deriving DecidableEq, Repr

namespace Extent

def unclosed : Extent := { length := 0, closed := false }

def behind (n : Nat) (e : Extent) : Extent := { e with length := n + e.length }

end Extent

/-- The body of a regular expression through its closing slash.  A slash
between square brackets does not close it. -/
def regexpBody (bracketed : Bool) : List Char → Extent
  | [] => .unclosed
  | '\\' :: [] => .behind 1 .unclosed
  | '\\' :: c :: cs =>
    if isLineBreak c then .behind 1 .unclosed else .behind 2 (regexpBody bracketed cs)
  | c :: cs =>
    if isLineBreak c then .unclosed
    else if c == '/' && !bracketed then { length := 1, closed := true }
    else .behind 1 (regexpBody ((bracketed || c == '[') && c != ']') cs)

/-- A regular expression from its opening slash through its flags. -/
def regexp [IdentifierTable] : List Char → Extent
  | [] => .unclosed
  | _ :: cs =>
    let body := regexpBody false cs
    if body.closed then
      { length := 1 + body.length + runLength isIdentifierPart (cs.drop body.length), closed := true }
    else .behind 1 body

/-- What an escape denotes, and how many characters behind its letter belong
to it. -/
structure Escape where
  value : List Char
  length : Nat := 0
deriving DecidableEq, Repr

namespace Escape

/-- The character with that number, or `letter` where there is none. -/
def codePoint (letter : Char) (n : Nat) : List Char :=
  if n.isValidChar then [Char.ofNat n] else [letter]

/-- Exactly `n` hexadecimal digits; otherwise the letter stands for itself. -/
def digits (letter : Char) (n : Nat) (cs : List Char) : Escape :=
  let run := cs.take n
  if run.length == n && run.all isHexDigit then
    { value := codePoint letter (hexNumber run), length := n }
  else { value := [letter] }

/-- The number written between braces: hexadecimal digits, perhaps behind a
plus sign, for at most 32 bits. -/
def braced? (inner : List Char) : Option Nat :=
  let run := if inner.head? == some '+' then inner.tail else inner
  if !run.isEmpty && run.all isHexDigit && hexNumber run < Nat.pow 2 32 then some (hexNumber run)
  else none

/-- A code point in braces; `cs` follows the opening brace. -/
def braces (cs : List Char) : Escape :=
  let inner := cs.takeWhile (· != '\x7d')
  match braced? inner with
  | some n =>
    if inner.length < cs.length then
      { value := codePoint 'u' n, length := inner.length + 2 }
    else { value := ['u'] }
  | none => { value := ['u'] }

/-- The escape with letter `c` before the characters `cs`.  A line break is a
continuation and denotes nothing; a letter without a meaning stands for
itself. -/
def read (c : Char) (cs : List Char) : Escape :=
  if c == 'n' then { value := ['\n'] }
  else if c == 't' then { value := ['\t'] }
  else if c == 'r' then { value := ['\r'] }
  else if c == 'b' then { value := ['\x08'] }
  else if c == 'f' then { value := ['\x0c'] }
  else if c == 'v' then { value := ['\x0b'] }
  else if c == '0' && !(cs.head?.any isDigit) then { value := ['\x00'] }
  else if c == 'x' then digits 'x' 2 cs
  else if c == 'u' then
    match cs with
    | '\x7b' :: rest => braces rest
    | _ => digits 'u' 4 cs
  else if c == '\r' then { value := [], length := if cs.head? == some '\n' then 1 else 0 }
  else if isLineBreak c then { value := [] }
  else { value := [c] }

end Escape

/-- A string behind its opening quotation mark: what it denotes so far, how
many characters it takes, and whether it is closed. -/
structure StringBody extends Extent where
  value : List Char
deriving DecidableEq, Repr

namespace StringBody

def unclosed : StringBody := { toExtent := .unclosed, value := [] }

def behind (n : Nat) (value : List Char) (b : StringBody) : StringBody :=
  { toExtent := .behind n b.toExtent, value := value ++ b.value }

end StringBody

/-- A string through its closing mark.  A bare line break leaves it open. -/
def stringBody (mark : Char) (cs : List Char) : StringBody :=
  match cs with
  | [] => .unclosed
  | c :: rest =>
    if c == mark then { length := 1, closed := true, value := [] }
    else if isLineBreak c then .unclosed
    else if c == '\\' then
      match rest with
      | [] => .behind 1 [] .unclosed
      | letter :: after =>
        let e := Escape.read letter after
        .behind (2 + e.length) e.value (stringBody mark (after.drop e.length))
    else .behind 1 [c] (stringBody mark rest)
termination_by cs.length
decreasing_by
  all_goals simp_all only [List.length_cons, List.length_drop]
  all_goals omega

/-! ## Strings on the way

`stringBody` puts a value together from the first character on.  A scan does so only where it has
to: as long as no escape has been met, the value is the stretch of the text that has been passed. -/

/-- A place in a string, with what is known of its value there. -/
structure StringScan where
  /-- The characters ahead. -/
  rest : List Char
  /-- The bytes passed behind the opening mark. -/
  offset : Nat := 0
  /-- The value so far, once it has been written out. -/
  written : Option String := none
  closed : Bool := false
deriving DecidableEq, Repr

namespace StringScan

def passed (body : List Char) (s : StringScan) : List Char := Lines.takeBytes body s.offset

def value (body : List Char) (s : StringScan) : String :=
  s.written.getD (String.ofList (s.passed body))

/-- Past a character that stands for itself. -/
def pass (c : Char) (rest : List Char) (s : StringScan) : StringScan :=
  { s with rest, offset := s.offset + c.utf8Size, written := s.written.map (·.push c) }

/-- Past a backslash.  From here on the value is written out. -/
def backslash (body rest : List Char) (s : StringScan) : StringScan :=
  { s with rest, offset := s.offset + 1, written := some (s.value body) }

/-- Past the letter of an escape and what belongs to it, which is one byte a character. -/
def escape (letter : Char) (after : List Char) (s : StringScan) : StringScan :=
  let e := Escape.read letter after
  { s with
    rest := Lines.dropBytes after e.length
    offset := s.offset + letter.utf8Size + e.length
    written := s.written.map (· ++ String.ofList e.value) }

/-- On to the closing mark, or to what leaves the string open. -/
def run (mark : Char) (body : List Char) (s : StringScan) : StringScan :=
  match _ : s.rest with
  | [] => s
  | c :: rest =>
    if c == mark then { s with closed := true }
    else if isLineBreak c then s
    else if c == '\\' then
      match rest with
      | [] => s.backslash body []
      | letter :: after => run mark body ((s.backslash body (letter :: after)).escape letter after)
    else run mark body (s.pass c rest)
termination_by s.rest.length
decreasing_by
  · rename_i hrest
    have hle := Lines.length_dropBytes_le after (Escape.read letter after).length
    rw [hrest]
    exact Nat.lt_succ_of_le (Nat.le_succ_of_le hle)
  · rename_i hrest _ _ _
    rw [hrest]
    exact Nat.lt_succ_self _

end StringScan

end Literal
end ScriptOutline
