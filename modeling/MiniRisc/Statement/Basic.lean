import MiniRisc.Opcode
import MiniRisc.Register
/-! Statements, the lines of an assembly program. Operands have the shape that the operation asks
for, so that nothing about them is left to check once a statement is read. Reserved words are the
mnemonics, alone or with the letter of a modifier, and the names of registers. -/
namespace MiniRisc

namespace Vocabulary

/-- Whether the modifier is legal there is another question: every mnemonic splits from every
letter. -/
def splitMnemonic? (word : String) : Option (Opcode × Modifier) :=
  match Opcode.ofMnemonic? word with
  | some op => some (op, .signed)
  | none =>
    let stem := String.ofList word.toList.dropLast
    match word.toList.getLast? with
    | some 'u' => (Opcode.ofMnemonic? stem).map (·, .unsigned)
    | some 'h' => (Opcode.ofMnemonic? stem).map (·, .high)
    | _ => none

/-- Reserved words cannot name labels. -/
def isReserved (word : String) : Bool :=
  (Register.ofName? word).isSome || (splitMnemonic? word).isSome

end Vocabulary

/-- The last operand of arithmetic: a register, or an immediate as its 32-bit pattern. -/
inductive Source
  | register (register : Register)
  | immediate (pattern : Nat)
  deriving DecidableEq, Repr

inductive Operands : Shape → Type
  | three (target left : Register) (right : Source) : Operands .three
  | two (register : Register) (source : Source) : Operands .two
  | address (register : Register) (displacement : Nat) (base : Register) : Operands .address
  | branch (label : String) : Operands .branch
  | bare : Operands .bare

inductive Operand
  | register (register : Register)
  | immediate (pattern : Nat)
  | label (name : String)
  | address (displacement : Nat) (base : Register)
  deriving DecidableEq, Repr

def Source.operand : Source → Operand
  | register r => .register r
  | immediate pattern => .immediate pattern

namespace Operands

def toList {shape : Shape} : Operands shape → List Operand
  | three target left right => [.register target, .register left, right.operand]
  | two register source => [.register register, source.operand]
  | address register displacement base => [.register register, .address displacement base]
  | branch label => [.label label]
  | bare => []

def endsWithImmediate {shape : Shape} : Operands shape → Bool
  | three _ _ (.immediate _) | two _ (.immediate _) => true
  | _ => false

end Operands

namespace Statement

structure Body where
  op : Opcode
  modifier : Modifier
  operands : Operands op.shape

end Statement

/-- A line of a program: its number and trimmed text, the label it defines, and its body. -/
structure Statement where
  line : Int
  text : String
  label : Option String
  body : Option Statement.Body

end MiniRisc
