import MiniRisc.Opcode
import MiniRisc.Token.Basic
/-! Why a source text is no program: the cause, the line it is found on, and the words for it. -/
namespace MiniRisc

def lowestLiteral : Int := -32768

def highestLiteral : Int := 65535

inductive LexicalFault
  | strayCharacter (c : Char)
  | straySlash
  | unterminatedComment
  | noDigits
  | invalidDigits (base : Nat) (digits : String)
  | outOfRange (value : Int)
  | numeral (fault : Text.NumeralFault)
  /-- A reason in the words of the caller. -/
  | other (reason : String)
  deriving DecidableEq, Repr

def LexicalFault.message : LexicalFault → String
  | strayCharacter c => "Unexpected character: " ++ Text.quoted c.toString
  | straySlash => "Expected '*' after '/' to open a block comment"
  | unterminatedComment => "Unterminated block comment"
  | noDigits => "Integer literal has no digits"
  | invalidDigits base digits =>
    "Invalid digit in base-" ++ Text.decimal base ++ " literal " ++ Text.quoted digits
  | outOfRange value =>
    "Immediate " ++ Text.decimal value ++ " out of range [" ++ Text.decimal lowestLiteral ++ ", " ++
      Text.decimal highestLiteral ++ "]"
  | numeral fault => fault.message
  | other reason => reason

/-- What is raised for an integer outside the limits: the words for it need its digits. -/
def LexicalFault.ofValue (value : Int) : LexicalFault :=
  if Text.isWritable value then .outOfRange value else .numeral .writing

inductive SyntaxFault
  | statementExpected
  | colonMissing (name : String)
  | unknownMnemonic (word : String)
  | reservedLabel (word : String)
  | modifierRefused (modifier : Modifier) (op : Opcode)
  | modifierIdle (modifier : Modifier)
  | registerExpected
  | sourceExpected
  | displacementExpected
  | markExpected (mark : Mark)
  | labelExpected
  | trailing (kind : Token.Kind)
  /-- A reason in the words of the caller. -/
  | other (reason : String)
  deriving DecidableEq, Repr

def SyntaxFault.message : SyntaxFault → String
  | statementExpected => "Expected a label or mnemonic"
  | colonMissing name => "Missing ':' after label '" ++ name ++ "'"
  | unknownMnemonic word => "Unknown mnemonic '" ++ word ++ "'"
  | reservedLabel word => "'" ++ word ++ "' is reserved and cannot be a label"
  | modifierRefused modifier op =>
    "Modifier '" ++ modifier.suffix ++ "' not allowed on '" ++ op.mnemonic ++ "'"
  | modifierIdle modifier => "Modifier '" ++ modifier.suffix ++ "' requires an immediate operand"
  | registerExpected => "Register expected"
  | sourceExpected => "Register or immediate expected"
  | displacementExpected => "Immediate displacement expected"
  | markExpected mark => "Expected '" ++ mark.char.toString ++ "'"
  | labelExpected => "Label expected"
  | trailing kind => "Unexpected " ++ kind.shown ++ " after operands"
  | other reason => reason

inductive Diagnostic.Cause
  | lexical (fault : LexicalFault) (column : Int)
  /-- A literal with too many digits, which is told without its place. -/
  | numeral (fault : Text.NumeralFault)
  | grammatical (fault : SyntaxFault) (token : Token)
  | duplicateLabel (name : String)
  | undefinedLabel (name : String)
  /-- A reason in the words of the caller. -/
  | other (reason : String)
  deriving DecidableEq, Repr

def Diagnostic.Cause.message : Cause → String
  | lexical fault _ => fault.message
  | numeral fault => fault.message
  | grammatical fault _ => fault.message
  | duplicateLabel name => "Duplicate label '" ++ name ++ "'"
  | undefinedLabel name => "Undefined label '" ++ name ++ "'"
  | other reason => reason

/-- A cause with the line of the text it is found on; line 0 stands for none. -/
structure Diagnostic where
  cause : Diagnostic.Cause
  line : Int := 0
  lineText : String := ""
  deriving DecidableEq, Repr

namespace Diagnostic

def lexical (fault : LexicalFault) (place : Place) (lineText : String) : Diagnostic :=
  ⟨.lexical fault place.column, place.line, lineText⟩

def grammatical (fault : SyntaxFault) (token : Token) (lineText : String) : Diagnostic :=
  ⟨.grammatical fault token, token.place.line, lineText⟩

def message (d : Diagnostic) : String :=
  if d.line = 0 then d.cause.message
  else "Line " ++ Text.decimal d.line ++ ": " ++ d.cause.message

end Diagnostic
end MiniRisc
