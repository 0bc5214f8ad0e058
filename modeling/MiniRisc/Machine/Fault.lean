import MiniRisc.Instruction.Basic
import MiniRisc.Text.Digits
/-! Why a machine cannot execute an instruction, and where the instruction is. -/
namespace MiniRisc

inductive Fault.Cause
  | unaligned (address : Int)
  | outOfRange (address : Int)
  /-- A memory access that failed for a reason in the words of the caller. -/
  | badAccess (reason : String) (address : Int)
  | divisionByZero
  | unknownService (number : Int)
  | numeral (fault : Text.NumeralFault)
  /-- A reason in the words of the caller. -/
  | other (reason : String)
  deriving DecidableEq, Repr

def Fault.Cause.message : Cause → String
  | unaligned address => "unaligned memory access at address " ++ Text.decimal address
  | outOfRange address => "memory address " ++ Text.decimal address ++ " out of range"
  | badAccess reason _ => reason
  | divisionByZero => "division by zero"
  | unknownService number => "unknown syscall number " ++ Text.decimal number
  | numeral fault => fault.message
  | other reason => reason

/-- What is raised for a cause: the words for it need the digits of its number. -/
def Fault.Cause.raised (cause : Cause) : Cause :=
  match cause with
  | unaligned number | outOfRange number | unknownService number =>
    if Text.isWritable number then cause else numeral .writing
  | _ => cause

/-- A cause with the index and the source line of the instruction; line 0 stands for none. -/
structure Fault where
  cause : Fault.Cause
  pc : Int := 0
  line : Int := 0
  deriving DecidableEq, Repr

namespace Fault

def locate (f : Fault) (pc : Int) (line : Int) : Fault := { f with pc, line }

def message (f : Fault) : String :=
  "pc=" ++ Text.decimal f.pc ++
    (if f.line = 0 then "" else " (line " ++ Text.decimal f.line ++ ")") ++ ": " ++ f.cause.message

end Fault

/-- What stops an instruction: a fault of the program, or a defect of what it is given. -/
inductive Trouble
  | fault (fault : Fault)
  | defect (defect : Defect)
  deriving DecidableEq, Repr

/-- A fault whose instruction is not known yet. -/
def Trouble.ofCause (cause : Fault.Cause) : Trouble := .fault { cause }

end MiniRisc
