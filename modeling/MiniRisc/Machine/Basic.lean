import MiniRisc.Instruction.Printer
import MiniRisc.Log
import MiniRisc.Machine.State
import MiniRisc.Program.Basic
/-! Machines that run a program. A machine stops when its program counter leaves the program, or
before an instruction when the limit on instructions is reached. -/
namespace MiniRisc

inductive Stop
  | halted | limitReached
  deriving DecidableEq, Repr

/-- A machine with its program and state. If it traces, it notes every instruction that it begins
with the registers before it. The journal is what it has logged. -/
structure Machine where
  program : Program
  settings : Settings
  state : State
  tracing : Bool := false
  trace : Array String := #[]
  journal : Array Log.Entry := #[]

namespace Machine

def start (program : Program) (settings : Settings) (console : Console) : Machine :=
  ⟨program, settings, { memory := .ofSize settings.memorySize, console }, false, #[], #[]⟩

def start? (program : Program) (settings : Settings) (console : Console) : Option Machine :=
  if settings.memorySize < Memory.sizeLimit then some (start program settings console) else none

/-- Starts over with cleared registers and memory; the streams go on where they are. -/
def reset (m : Machine) : Machine :=
  { m with state := (start m.program m.settings m.state.console).state, trace := #[] }

def current? (m : Machine) : Option Instruction := m.program.fetch? m.state.registers.pc

/-- Whether the program counter is outside the program. -/
def halted (m : Machine) : Bool := m.current?.isNone

def log (m : Machine) (entries : List Log.Entry) : Machine :=
  { m with journal := m.journal ++ entries }

def traceLine (rs : Registers) (i : Instruction) : Except Defect String := do
  let text ← i.render
  let address := Text.padLeft '0' 4 (Text.decimal rs.pc)
  return address ++ ": " ++ Text.padRight 24 text ++ " " ++ rs.summary

def note (m : Machine) (i : Instruction) : Except Defect Machine :=
  if m.tracing then do
    let line ← traceLine m.state.registers i
    return { m.log [⟨.machine, .debug, line⟩] with trace := m.trace.push line }
  else .ok m

def notices (m : Machine) (i : Instruction) : List Log.Entry :=
  if i.op = .sys then
    Service.notices m.settings.policy m.state.serviceNumber m.state.arguments
  else []

def locate (pc line : Int) : Trouble → Trouble
  | .fault f => .fault (f.locate pc line)
  | .defect d => .defect d

/-- Executes one instruction. A machine that has halted stays as it is; one whose instruction fails
is left where the instruction failed. -/
def step (m : Machine) : Except Trouble (Option Stop) × Machine :=
  match m.current? with
  | none => (.ok (some .halted), m)
  | some i =>
    match m.note i with
    | .error d => (.error (.defect d), m)
    | .ok noted =>
      let logged := noted.log (m.notices i)
      match (Effect.execute m.settings.policy i.toOperation).run m.state with
      | .error t state => (.error (locate m.state.registers.pc i.line t), { logged with state })
      | .ok _ state => (.ok none, { logged with state })

def runFor : Nat → Machine → Except Trouble Stop × Machine
  | 0, m => (.ok (if m.halted then .halted else .limitReached), m)
  | n + 1, m =>
    if m.halted then (.ok .halted, m)
    else
      match m.step with
      | (.error t, m) => (.error t, m)
      | (.ok _, m) => runFor n m

/-- The limit of a run: the one asked for, or else the one among the settings. -/
def limit? (m : Machine) (asked : Option Int) : Option Int :=
  asked.orElse fun _ => m.settings.stepLimit.map Int.ofNat

/-- Executes until the machine has executed a number of instructions since its start. -/
def runTo (limit : Int) (m : Machine) : Except Trouble Stop × Machine :=
  runFor (limit - m.state.registers.steps).toNat m

def conclusion (m : Machine) (limit : Option Int) : Stop → Log.Entry
  | .halted => ⟨.machine, .info, "halted at pc=" ++ Text.decimal m.state.registers.pc ++
      " after " ++ Text.decimal m.state.registers.steps ++ " steps"⟩
  | .limitReached => ⟨.machine, .info, "step limit " ++ Text.decimal (limit.getD 0) ++
      " reached at pc=" ++ Text.decimal m.state.registers.pc⟩

def load (m : Machine) (data : List UInt8) (base : Int) : Except Fault.Cause Machine := do
  return { m with state := { m.state with memory := ← m.state.memory.load data base } }

end Machine
end MiniRisc
