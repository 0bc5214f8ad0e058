import MiniRisc.Opcode
/-! Instructions, what a program consists of. Their fields may hold any numbers: the assembler and
the image decoder give them only registers and immediates that exist. -/
namespace MiniRisc

/-- What an instruction does. Arithmetic writes the target `rd` from the register `rs1` and a
second source, which is the immediate if there is one and else the register `rs2`. Comparison has
no target. Loads and stores move the register `rd` at a displacement from the base `rs1`. A branch
goes to the instruction whose index is the immediate. -/
structure Operation where
  op : Opcode
  modifier : Modifier := .signed
  rd : Int := 0
  rs1 : Int := 0
  rs2 : Option Int := none
  imm : Option Int := none
  deriving DecidableEq, Repr

structure Instruction extends Operation where
  line : Int := 0
  label : Option String := none
  deriving DecidableEq, Repr

namespace Operation

def mnemonic (o : Operation) : String := o.op.mnemonic ++ o.modifier.suffix

end Operation

/-- Misuse of instructions and streams that no program from the assembler or the image decoder
shows. -/
inductive Defect
  /-- An operand that the operation needs is absent. -/
  | missingOperand
  /-- A number that names no register. -/
  | unnamedRegister
  /-- A position outside the register file or a list. -/
  | noSuchPosition
  /-- Bytes are asked of a stream of text. -/
  | textInput
  /-- Bytes are written to a stream of text. -/
  | textOutput
  deriving DecidableEq, Repr

def Defect.message : Defect → String
  | missingOperand => "missing operand"
  | unnamedRegister => "no register of that number"
  | noSuchPosition => "no such position"
  | textInput => "getchar needs a binary stdin stream, read() returned str"
  | textOutput => "putchar needs a binary stdout stream"

end MiniRisc
