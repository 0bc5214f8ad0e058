import MiniRisc.Diagnostic
import MiniRisc.Program.Basic
import MiniRisc.Statement.OfTokens
/-! Assembly of statements into a program. Every statement with a body becomes one instruction. A
label stands for the index of the first instruction at or after it, or for the size of the program
if none follows. All labels are known before the first operand is resolved. -/
namespace MiniRisc
namespace Assembly

/-- The labels of statements whose first instruction has an index, behind those already known. The
first label defined again stops the count, and the table so far is kept. -/
def bindLabels (labels : LabelTable) (index : Nat) :
    List Statement → LabelTable × Option Diagnostic
  | [] => (labels, none)
  | s :: rest =>
    let index' := if s.body.isSome then index + 1 else index
    match s.label with
    | none => bindLabels labels index' rest
    | some name =>
      if (labels.lookup name).isSome then
        (labels, some ⟨.duplicateLabel name, s.line, s.text⟩)
      else bindLabels (labels ++ [(name, index)]) index' rest

/-- The instruction of an operation with its second source. Only an immediate is widened, so only
it keeps the modifier. -/
def withSource (o : Operation) (modifier : Modifier) : Source → Operation
  | .register r => { o with rs2 := some (r.val : Int) }
  | .immediate pattern => { o with modifier, imm := some ((pattern % 2 ^ 16 : Nat) : Int) }

def resolveOperands (labels : LabelTable) (op : Opcode) (modifier : Modifier) (line : Int)
    {shape : Shape} : Operands shape → Except String Instruction
  | .three target left right =>
    .ok { withSource { op, rd := target.val, rs1 := left.val } modifier right with line }
  | .two register source =>
    let o : Operation :=
      if op = .cmp then { op, rs1 := register.val } else { op, rd := register.val }
    .ok { withSource o modifier source with line }
  | .address register displacement base =>
    .ok { op, rd := register.val, rs1 := base.val,
          imm := some ((displacement % 2 ^ 16 : Nat) : Int), line }
  | .branch name =>
    match labels.lookup name with
    | none => .error name
    | some index => .ok { op, imm := some (index : Int), line, label := some name }
  | .bare => .ok { op, line }

def resolve (labels : LabelTable) : List Statement → Except Diagnostic (List Instruction)
  | [] => .ok []
  | s :: rest =>
    match s.body with
    | none => resolve labels rest
    | some body =>
      match resolveOperands labels body.op body.modifier s.line body.operands with
      | .error name => .error ⟨.undefinedLabel name, s.line, s.text⟩
      | .ok i => (resolve labels rest).map (i :: ·)

def program (statements : List Statement) : Except Diagnostic Program :=
  match bindLabels [] 0 statements with
  | (_, some d) => .error d
  | (labels, none) => (resolve labels statements).map fun is => ⟨is.toArray, labels⟩

end Assembly

def Program.ofSource (source : String) : Except Diagnostic Program := do
  Assembly.program (← Statement.ofSource source)

end MiniRisc
