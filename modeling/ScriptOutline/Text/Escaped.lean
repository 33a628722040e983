import ScriptOutline.Text.Hidden

/-!
Text in quotation marks for people to read: what does not show by itself is
written as an escape.
-/

namespace ScriptOutline
namespace Text
namespace Escaped

def codePoint (c : Char) : List Char :=
  ['\\', 'u', '\x7b'] ++ hexDigits c.toNat ++ ['\x7d']

/-- One character between the marks `mark`. -/
def character (mark c : Char) : List Char :=
  if c == '\x00' then ['\\', '0']
  else if c == '\t' then ['\\', 't']
  else if c == '\r' then ['\\', 'r']
  else if c == '\n' then ['\\', 'n']
  else if c == '\\' || c == mark then ['\\', c]
  else if isHidden c then codePoint c
  else [c]

def characters (mark : Char) (cs : List Char) : List Char :=
  mark :: (cs.flatMap (character mark) ++ [mark])

end Escaped

def escaped (s : String) : String := String.ofList (Escaped.characters '\x22' s.toList)

def escapedChar (c : Char) : String := String.ofList (Escaped.characters '\x27' [c])

end Text
end ScriptOutline
