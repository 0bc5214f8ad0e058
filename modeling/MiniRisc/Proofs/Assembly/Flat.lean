import MiniRisc.Assembly.Basic
import MiniRisc.Instruction.Basic
/-! Resolution of operands from a flat list. It takes operands by their positions and asks for
their kinds where it uses them, so on an arbitrary list it may find one missing or of another kind.
On the operands of a shape it does not. -/
namespace MiniRisc

namespace Operand

def register? : Operand → Except Defect Register
  | .register r => .ok r
  | _ => .error .missingOperand

def label? : Operand → Except Defect String
  | .label name => .ok name
  | _ => .error .missingOperand

def address? : Operand → Except Defect (Nat × Register)
  | .address displacement base => .ok (displacement, base)
  | _ => .error .missingOperand

/-- A second source: an immediate, or else it must be a register. -/
def source? : Operand → Except Defect Source
  | .immediate pattern => .ok (.immediate pattern)
  | operand => operand.register?.map .register

end Operand

namespace Assembly

def operandAt (operands : List Operand) (position : Nat) : Except Defect Operand :=
  match operands[position]? with
  | some operand => .ok operand
  | none => .error .noSuchPosition

/-- The registers of arithmetic from the operands before the source. A comparison has no target,
and one register is the target of anything else. -/
def registersOf (op : Opcode) (operands : List Operand) : Except Defect Operation := do
  let first ← (← operandAt operands 0).register?
  if op = .cmp then return { op, rs1 := first.val }
  else if operands.length = 1 then return { op, rd := first.val }
  else
    let second ← (← operandAt operands 1).register?
    return { op, rd := first.val, rs1 := second.val }

def resolveFlat (labels : LabelTable) (op : Opcode) (modifier : Modifier) (line : Int)
    (operands : List Operand) : Except Defect (Except String Instruction) :=
  match op.shape with
  | .branch => do
    let name ← (← operandAt operands 0).label?
    return match labels.lookup name with
      | none => .error name
      | some index => .ok { op, imm := some (index : Int), line, label := some name }
  | .bare => return .ok { op, line }
  | .address => do
    match operands with
    | [data, address] =>
      let data ← data.register?
      let (displacement, base) ← address.address?
      return .ok { op, rd := data.val, rs1 := base.val,
                   imm := some ((displacement % 2 ^ 16 : Nat) : Int), line }
    | _ => throw .noSuchPosition
  | .three | .two => do
    match operands.getLast? with
    | some last =>
      let operation ← registersOf op operands.dropLast
      let source ← last.source?
      return .ok { withSource operation modifier source with line }
    | none => throw .noSuchPosition

/-- Operands of the shape that the operation asks for have everything where it is looked for. -/
theorem resolveFlat_toList (labels : LabelTable) (op : Opcode) (modifier : Modifier) (line : Int)
    (operands : Operands op.shape) : resolveFlat labels op modifier line operands.toList =
      .ok (resolveOperands labels op modifier line operands) := by
  unfold resolveFlat
  generalize hshape : op.shape = shape at operands
  cases operands with
  | three target left right =>
    have hop : op ≠ .cmp := fun h => by simp [h, Opcode.shape] at hshape
    cases right <;> simp [resolveOperands, Operands.toList, registersOf, hop] <;> rfl
  | two register source =>
    by_cases hop : op = .cmp
    · subst hop
      cases source <;> rfl
    · cases source <;> simp [resolveOperands, Operands.toList, registersOf, hop] <;> rfl
  | address register displacement base => rfl
  | branch name => rfl
  | bare => rfl

end Assembly
end MiniRisc
