/-
The catalogue of messages, each with a stable number.
-/

namespace ScriptOutline

inductive Severity where
  | warning
  | error
deriving DecidableEq, Repr

def Severity.text : Severity → String
  | .warning => "warning"
  | .error => "error"

inductive Message where
  | unterminatedString
  | unterminatedComment
  | unterminatedRegexp
  | invalidCharacter
  | unexpectedToken
  | endOfInput
  | invalidStatement
  | unknownStructure
  | nestingTooDeep
  | computedAccess
  | constructSkipped
  | incompleteExpression
  | unreadableFile
  | invalidConfiguration
deriving DecidableEq, Repr

namespace Message

def all : List Message :=
  [unterminatedString, unterminatedComment, unterminatedRegexp, invalidCharacter,
   unexpectedToken, endOfInput, invalidStatement, unknownStructure, nestingTooDeep,
   computedAccess, constructSkipped, incompleteExpression, unreadableFile, invalidConfiguration]

/-- Scanning is numbered from 1001, reading from 1100, warnings from 2001, and
files and settings from 3001. -/
def number : Message → Nat
  | unterminatedString => 1001
  | unterminatedComment => 1002
  | unterminatedRegexp => 1003
  | invalidCharacter => 1004
  | unexpectedToken => 1100
  | endOfInput => 1101
  | invalidStatement => 1102
  | unknownStructure => 1103
  | nestingTooDeep => 1104
  | computedAccess => 2001
  | constructSkipped => 2002
  | incompleteExpression => 2003
  | unreadableFile => 3001
  | invalidConfiguration => 3002

def ofNumber? (n : Nat) : Option Message := all.find? (·.number == n)

theorem ofNumber?_number (m : Message) : ofNumber? m.number = some m := by
  cases m <;> decide

def code (m : Message) : String := "DS" ++ toString m.number

def severity : Message → Severity
  | computedAccess | constructSkipped | incompleteExpression => .warning
  | _ => .error

/-- The wording, with numbered places for the particulars. -/
def template : Message → String
  | unterminatedString => "Unterminated string literal."
  | unterminatedComment => "Unterminated comment."
  | unterminatedRegexp => "Unterminated regular expression literal."
  | invalidCharacter => "Invalid character '\x7b0\x7d'."
  | unexpectedToken => "Expected \x7b0\x7d, got \x7b1\x7d."
  | endOfInput => "Unexpected end of input."
  | invalidStatement => "Invalid statement starting with \x7b0\x7d."
  | unknownStructure => "Unknown structure kind \x7b0\x7d."
  | nestingTooDeep => "Nesting too deep; maximum depth is \x7b0\x7d."
  | computedAccess => "Computed member access cannot be resolved statically."
  | constructSkipped => "'\x7b0\x7d' construct skipped."
  | incompleteExpression => "Expression is part of a larger expression and was not decomposed."
  | unreadableFile => "Could not read file '\x7b0\x7d': \x7b1\x7d."
  | invalidConfiguration => "Invalid configuration: \x7b0\x7d."

/-- Every occurrence of `pattern`, found from the left and without overlap,
gives way to `value`.  The pattern is not empty. -/
def replaceAll (pattern value : List Char) : List Char → List Char
  | [] => []
  | c :: cs =>
    if pattern.isPrefixOf (c :: cs) then
      value ++ replaceAll pattern value (cs.drop (pattern.length - 1))
    else c :: replaceAll pattern value cs
termination_by text => text.length
decreasing_by
  all_goals simp only [List.length_cons, List.length_drop]
  all_goals omega

def placeholder (i : Nat) : List Char := '\x7b' :: (Nat.toDigits 10 i ++ ['\x7d'])

/-- Fill the places from number `i` on.  Each argument is put in before the
next place is looked for, so a place that an argument brings along is filled
by a later argument. -/
def fillFrom (i : Nat) (text : List Char) : List String → List Char
  | [] => text
  | a :: rest => fillFrom (i + 1) (replaceAll (placeholder i) a.toList text) rest

def fill (template : String) (arguments : List String) : String :=
  String.ofList (fillFrom 0 template.toList arguments)

def text (m : Message) (arguments : List String) : String := fill m.template arguments

end Message

end ScriptOutline
