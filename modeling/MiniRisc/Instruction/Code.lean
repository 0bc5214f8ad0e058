import MiniRisc.Instruction.Basic
import MiniRisc.Text.Digits
/-! Instructions as 32-bit words. The operation is in bits 27 to 31.

A branch holds the distance to its target in bits 0 to 26. A bare instruction holds nothing more.
All others hold `rd` in bits 22 to 25 and `rs1` in bits 18 to 21. Bit 26 tells whether an immediate
follows in bits 0 to 15, with its modifier in bits 16 and 17, or a register in bits 14 to 17. -/
namespace MiniRisc

inductive CodeFault
  | branchTooFar (op : Opcode) (distance : Int)
  | unknownOpcode (index : Int) (number : Nat)
  | invalidModifier (index : Int)
  | raggedImage (size : Nat)
  /-- An operand that the word must hold is absent. -/
  | missingOperand
  | numeral (fault : Text.NumeralFault)
  /-- A reason in the words of the caller. -/
  | other (reason : String)
  deriving DecidableEq, Repr

def CodeFault.message : CodeFault → String
  | branchTooFar op distance =>
    op.mnemonic ++ ": branch offset " ++ Text.decimal distance ++ " does not fit in 27 bits"
  | unknownOpcode index number =>
    "word " ++ Text.decimal index ++ ": unknown opcode " ++ Text.decimal number
  | invalidModifier index => "word " ++ Text.decimal index ++ ": invalid modifier bits 0b11"
  | raggedImage size => "image size " ++ Text.decimal size ++ " is not a multiple of 4 bytes"
  | missingOperand => "missing operand"
  | numeral fault => fault.message
  | other reason => reason

/-- What is raised for a fault: the words for it need the digits of its number. -/
def CodeFault.raised (fault : CodeFault) : CodeFault :=
  match fault with
  | branchTooFar _ number | unknownOpcode number _ | invalidModifier number =>
    if Text.isWritable number then fault else numeral .writing
  | _ => fault

namespace Code

def low (width : Nat) (value : Int) : Nat := (value % 2 ^ width).toNat

def field (word : Int) (position width : Nat) : Nat := low width (word / 2 ^ position)

/-- Distances from the instruction to the target that a branch can hold. -/
def reaches (distance : Int) : Bool := -2 ^ 26 ≤ distance && distance < 2 ^ 26

/-- The word of an operation at an index. An immediate goes before a register as the second
source. -/
def encode (o : Operation) (index : Int) : Except CodeFault Nat :=
  let head := o.op.number * 2 ^ 27
  match o.op.shape with
  | .branch =>
    match o.imm with
    | none => .error .missingOperand
    | some target =>
      if reaches (target - index) then .ok (head + low 27 (target - index))
      else .error (.branchTooFar o.op (target - index))
  | .bare => .ok head
  | .three | .two | .address =>
    let registers := head + low 4 o.rd * 2 ^ 22 + low 4 o.rs1 * 2 ^ 18
    match o.imm, o.rs2 with
    | some imm, _ => .ok (registers + 2 ^ 26 + o.modifier.number * 2 ^ 16 + low 16 imm)
    | none, some number => .ok (registers + low 4 number * 2 ^ 14)
    | none, none => .error .missingOperand

/-- The operation of a word at an index. Bits that no field uses do not count. -/
def decode (word index : Int) : Except CodeFault Operation :=
  match Opcode.ofNumber? (field word 27 5) with
  | none => .error (CodeFault.unknownOpcode index (field word 27 5)).raised
  | some op =>
    match op.shape with
    | .branch => .ok { op, imm := some (index + word.bmod (2 ^ 27)) }
    | .bare => .ok { op }
    | .three | .two | .address =>
      let rd : Int := field word 22 4
      let rs1 : Int := field word 18 4
      if field word 26 1 = 0 then .ok { op, rd, rs1, rs2 := some (field word 14 4) }
      else
        match Modifier.ofNumber? (field word 16 2) with
        | none => .error (CodeFault.invalidModifier index).raised
        | some modifier => .ok { op, modifier, rd, rs1, imm := some (low 16 word) }

theorem low_lt (width : Nat) (value : Int) : low width value < 2 ^ width := by
  have hp : (0 : Int) < 2 ^ width := Int.pow_pos (by decide)
  have hlt := Int.emod_lt_of_pos value hp
  have hcast : ((2 ^ width : Nat) : Int) = 2 ^ width := by simp
  unfold low
  omega

end Code
end MiniRisc
