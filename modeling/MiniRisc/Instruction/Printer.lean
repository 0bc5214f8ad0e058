import MiniRisc.Instruction.Basic
import MiniRisc.Register
/-! The text of an instruction, as it is written in a program. -/
namespace MiniRisc.Instruction

def registerName (number : Int) : Except Defect String :=
  match Register.ofNumber? number with
  | some r => .ok r.name
  | none => .error .unnamedRegister

/-- An immediate under a modifier: with its sign if it is widened by it, in hexadecimal else. -/
def immediateText (modifier : Modifier) (imm : Int) : String :=
  match modifier with
  | .signed => Text.decimal (imm.bmod (2 ^ 16))
  | _ => "0x" ++ Text.hex (imm % 2 ^ 16).toNat

def sourceText (i : Instruction) : Except Defect String :=
  match i.imm, i.rs2 with
  | some imm, _ => .ok (immediateText i.modifier imm)
  | none, some number => registerName number
  | none, none => .error .unnamedRegister

/-- A branch is written with its label, or with its target if it has none. -/
def targetText (i : Instruction) : String :=
  match i.label, i.imm with
  | some label, imm => if label = "" then targetNumber imm else label
  | none, imm => targetNumber imm
where
  targetNumber : Option Int → String
    | some imm => Text.decimal imm
    | none => "None"

def displacementText (i : Instruction) : Except Defect String :=
  match i.imm with
  | some imm => .ok (immediateText .signed imm)
  | none => .error .missingOperand

/-- The text of an instruction. The number `rd` must name a register in every shape. -/
def render (i : Instruction) : Except Defect String := do
  let target ← registerName i.rd
  match i.op.shape with
  | .branch => return i.mnemonic ++ " " ++ i.targetText
  | .address =>
    let displacement ← i.displacementText
    let base ← registerName i.rs1
    return i.mnemonic ++ " " ++ target ++ ", " ++ displacement ++ "[" ++ base ++ "]"
  | .two =>
    if i.op = .cmp then
      let left ← registerName i.rs1
      return i.mnemonic ++ " " ++ left ++ ", " ++ (← i.sourceText)
    else return i.mnemonic ++ " " ++ target ++ ", " ++ (← i.sourceText)
  | .three =>
    let left ← registerName i.rs1
    return i.mnemonic ++ " " ++ target ++ ", " ++ left ++ ", " ++ (← i.sourceText)
  | .bare => return i.mnemonic

end MiniRisc.Instruction
