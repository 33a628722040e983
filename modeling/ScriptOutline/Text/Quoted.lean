import ScriptOutline.Text.Character

/-!
String literals in double quotation marks.  Everything that would end the
literal or its line is written as an escape.
-/

namespace ScriptOutline
namespace Text
namespace Quoted

def twoDigits (n : Nat) : List Char := hexDigits (n / 16) ++ hexDigits (n % 16)

def character (c : Char) : List Char :=
  if c == '\x22' then ['\\', '\x22']
  else if c == '\\' then ['\\', '\\']
  else if c == '\n' then ['\\', 'n']
  else if c == '\r' then ['\\', 'r']
  else if c == '\t' then ['\\', 't']
  else if c == '\x08' then ['\\', 'b']
  else if c == '\x0c' then ['\\', 'f']
  else if c == '\x0b' then ['\\', 'v']
  else if c == '\x00' then ['\\', '0']
  else if c == '\u2028' then ['\\', 'u', '2', '0', '2', '8']
  else if c == '\u2029' then ['\\', 'u', '2', '0', '2', '9']
  else if c.toNat < 0x20 then ['\\', 'x'] ++ twoDigits c.toNat
  else [c]

def characters (value : List Char) : List Char :=
  '\x22' :: (value.flatMap character ++ ['\x22'])

end Quoted

/-- The literal whose value is `value`. -/
def quoted (value : String) : String := String.ofList (Quoted.characters value.toList)

end Text
end ScriptOutline
