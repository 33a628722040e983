import ScriptOutline.Diagnostic.Basic
import ScriptOutline.Token.Pattern

/-!
Why a text or a script could not be read, with the wording of each cause.
-/

namespace ScriptOutline

inductive LexFault where
  | unterminatedString
  | unterminatedComment
  | unterminatedRegexp
  | invalidCharacter (c : Char)
deriving DecidableEq, Repr

inductive ReadFault where
  | lexical (fault : LexFault)
  | unexpectedToken (expected : TokenPattern) (kind : TokenKind) (value : String)
  | endOfInput
  | invalidStatement (found : Token)
  | unknownStructure (found : Token)
  | nestingTooDeep
deriving DecidableEq, Repr

/-- How deeply statements, values and groups may be nested. -/
def nestingLimit : Nat := 256

structure LexError where
  fault : LexFault
  location : Location
deriving DecidableEq, Repr

structure ReadError where
  fault : ReadFault
  location : Location
deriving DecidableEq, Repr

namespace LexFault

def wording : LexFault → String
  | unterminatedString => "Unterminated string literal"
  | unterminatedComment => "Unterminated comment"
  | unterminatedRegexp => "Unterminated regular expression literal"
  | invalidCharacter c => "Invalid character " ++ Text.escapedChar c

def message : LexFault → Message
  | unterminatedString => .unterminatedString
  | unterminatedComment => .unterminatedComment
  | unterminatedRegexp => .unterminatedRegexp
  | invalidCharacter _ => .invalidCharacter

def arguments : LexFault → List String
  | invalidCharacter c => [c.toString]
  | _ => []

end LexFault

namespace ReadFault

def wording : ReadFault → String
  | lexical fault => fault.wording
  | unexpectedToken expected kind value =>
    "Expected " ++ expected.describe ++ ", got " ++ kind.text ++ " '" ++ value ++ "'"
  | endOfInput => "Unexpected end of input"
  | invalidStatement found => "Invalid statement starting with " ++ found.describe
  | unknownStructure found => "Unknown structure kind " ++ found.describe
  | nestingTooDeep => "Nesting too deep"

def message : ReadFault → Message
  | lexical fault => fault.message
  | unexpectedToken .. => .unexpectedToken
  | endOfInput => .endOfInput
  | invalidStatement _ => .invalidStatement
  | unknownStructure _ => .unknownStructure
  | nestingTooDeep => .nestingTooDeep

def arguments : ReadFault → List String
  | lexical fault => fault.arguments
  | unexpectedToken expected kind value =>
    [expected.describe, kind.text ++ " '" ++ value ++ "'"]
  | endOfInput => []
  | invalidStatement found | unknownStructure found => [found.describe]
  | nestingTooDeep => [toString nestingLimit]

end ReadFault

namespace LexError

def text (e : LexError) : String := e.fault.wording ++ " at " ++ e.location.position.text

def toDiagnostic (e : LexError) : Diagnostic :=
  .located e.location e.fault.message e.fault.arguments

end LexError

namespace ReadError

/-- A text that cannot be scanned cannot be read, for the same cause. -/
def ofLexError (e : LexError) : ReadError := { fault := .lexical e.fault, location := e.location }

def text (e : ReadError) : String := e.fault.wording ++ " at " ++ e.location.position.text

def toDiagnostic (e : ReadError) : Diagnostic :=
  .located e.location e.fault.message e.fault.arguments

def endOfInput (t : Token) : ReadError := { fault := .endOfInput, location := t.location }

def nestingTooDeep (t : Token) : ReadError := { fault := .nestingTooDeep, location := t.location }

def invalidStatement (t : Token) : ReadError :=
  { fault := .invalidStatement t, location := t.location }

/-- The token `t` stands where `expected` was asked for.  The end of the input
is reported as such, whatever was asked for. -/
def unexpected (expected : TokenPattern) (t : Token) : ReadError :=
  if t.isEof then endOfInput t
  else { fault := .unexpectedToken expected t.kind t.value, location := t.location }

theorem toDiagnostic_ofLexError (e : LexError) : (ofLexError e).toDiagnostic = e.toDiagnostic := rfl

theorem text_ofLexError (e : LexError) : (ofLexError e).text = e.text := rfl

end ReadError

end ScriptOutline
