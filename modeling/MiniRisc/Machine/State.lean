import MiniRisc.Instruction.Basic
import MiniRisc.Machine.Memory
import MiniRisc.Machine.Registers
import MiniRisc.Machine.Service
/-! What one instruction does to registers, memory and console. It does so a step at a time, and
what is done before a step that fails stays done. -/
namespace MiniRisc

structure State where
  registers : Registers := {}
  memory : Memory
  console : Console := {}
  deriving DecidableEq, Repr

namespace State

def arguments (s : State) : List Int := [1, 2, 3, 4].map s.registers.value

def serviceNumber (s : State) : Int := s.registers.value 0

end State

/-- Steps on a state, of which one that fails ends all. -/
abbrev Effect := EStateM Trouble State

namespace Effect

def operand {α : Type} : Except Defect α → Effect α
  | .ok a => pure a
  | .error d => throw (.defect d)

def access {α : Type} : Except Fault.Cause α → Effect α
  | .ok a => pure a
  | .error cause => throw (.ofCause cause)

def read (number : Int) : Effect Int := do operand ((← get).registers.get number)

def write (number value : Int) : Effect Unit := do
  let registers ← operand ((← get).registers.set number value)
  modify fun s => { s with registers }

/-- The second source: the widened immediate if there is one, else a register. -/
def source (o : Operation) : Effect Int :=
  match o.imm, o.rs2 with
  | some imm, _ => return Word.widen o.modifier imm
  | none, some number => read number
  | none, none => throw (.defect .missingOperand)

/-- The address of a load or a store: the base and the displacement with its sign. -/
def address (o : Operation) : Effect Int := do
  let base ← read o.rs1
  match o.imm with
  | some imm => return Word.add base (Word.widen .signed imm)
  | none => throw (.defect .missingOperand)

/-- Arithmetic on both sources; a result that does not exist is a division by zero. -/
def compute (o : Operation) (f : Int → Int → Option Int) : Effect Unit := do
  let a ← read o.rs1
  let b ← source o
  match f a b with
  | some result => write o.rd result
  | none => throw (.ofCause .divisionByZero)

def compare (o : Operation) : Effect Unit := do
  let a ← read o.rs1
  let b ← source o
  let (equal, greater) := Word.compare a b
  modify fun s => { s with registers := { s.registers with equal, greater } }

def load (o : Operation) : Effect Unit := do
  let address ← address o
  write o.rd (← access ((← get).memory.read32 address))

def store (o : Operation) : Effect Unit := do
  let address ← address o
  let value ← read o.rd
  let memory ← access ((← get).memory.write32 address value)
  modify fun s => { s with memory }

/-- Calls the service asked for; its result takes the place of its number. -/
def serve (policy : ServicePolicy) : Effect Unit := do
  let s ← get
  match Service.call policy s.serviceNumber s.arguments s.console with
  | .error t => throw t
  | .ok (result, console) =>
    modify fun s => { s with console }
    modify fun s => { s with registers := s.registers.write 0 result }

def perform (policy : ServicePolicy) (o : Operation) : Effect (Option Int) :=
  match o.op with
  | .add => stay (compute o fun a b => some (Word.add a b))
  | .sub => stay (compute o fun a b => some (Word.sub a b))
  | .mul => stay (compute o fun a b => some (Word.mul a b))
  | .div => stay (compute o Word.div?)
  | .mod => stay (compute o Word.mod?)
  | .and => stay (compute o fun a b => some (Word.and a b))
  | .or => stay (compute o fun a b => some (Word.or a b))
  | .lsl => stay (compute o fun a b => some (Word.shiftLeft a b))
  | .lsr => stay (compute o fun a b => some (Word.shiftRightLogical a b))
  | .asr => stay (compute o fun a b => some (Word.shiftRightArithmetic a b))
  | .cmp => stay (compare o)
  | .not => stay do write o.rd (Word.not (← source o))
  | .mov => stay do write o.rd (← source o)
  | .ld => stay (load o)
  | .st => stay (store o)
  | .b => return o.imm
  | .beq => return if (← get).registers.equal then o.imm else none
  | .bgt => return if (← get).registers.greater then o.imm else none
  | .call => do
    modify fun s => { s with registers := s.registers.write .link (s.registers.pc + 1) }
    return o.imm
  | .ret => return some ((← get).registers.value .link)
  | .nop => return none
  | .sys => stay (serve policy)
where
  stay (effect : Effect Unit) : Effect (Option Int) := do
    effect
    return none

def execute (policy : ServicePolicy) (o : Operation) : Effect Unit := do
  let pc := (← get).registers.pc
  let target ← perform policy o
  modify fun s => { s with registers := { s.registers with
    pc := target.getD (pc + 1)
    steps := s.registers.steps + 1 } }

end Effect
end MiniRisc
