import MiniRisc.Command.Report
/-! The command line program. It reads the input, carries out what is planned for it, and shows
the report. -/
namespace MiniRisc.Main
open Command

def readingOfError : IO.Error → Reading
  | .noFileOrDirectory .. => .absent
  | .inappropriateType _ code reason => .failed code.toNat reason
  | .permissionDenied _ code reason => .failed code.toNat reason
  | e => .failed 0 (toString e)

def readInput (path : String) : IO Reading := do
  if isUnnameable path then return .unnameable
  try return .content (← IO.FS.readBinFile path).toList
  catch e => return readingOfError e

def present (report : Report) : IO UInt32 := do
  let out ← IO.getStdout
  out.write ⟨report.output.toArray⟩
  out.flush
  IO.eprint report.errors
  return report.status.toUInt32

def save (path : String) (data : List UInt8) (report : Report) : IO UInt32 := do
  try
    IO.FS.writeBinFile path ⟨data.toArray⟩
    present report
  catch e =>
    present (failure [] (toString e))

/-- Gives the machine a byte of input if it is about to ask for one. -/
def feed (m : Machine) : IO Machine := do
  let asks := (m.current?.map (·.op)) = some .sys && m.state.serviceNumber = 0
  if asks && m.state.console.input = .bytes [] then
    let data ← (← IO.getStdin).read 1
    let console := { m.state.console with input := .bytes data.toList }
    return { m with state := { m.state with console } }
  else return m

def drain (o : Options) (m : Machine) : IO Machine := do
  let out ← IO.getStdout
  out.write ⟨m.state.console.written⟩
  out.flush
  IO.eprint (o.logText m.journal.toList)
  let console := { m.state.console with written := #[] }
  return { m with state := { m.state with console }, journal := #[] }

/-- Runs a machine an instruction at a time. -/
partial def run (o : Options) (m : Machine) : IO (Except Trouble Stop × Machine) := do
  let m ← feed (← drain o m)
  if m.settings.stepLimit = some m.state.registers.steps then return m.runFor 0
  else
    match m.runFor 1 with
    | (.ok .limitReached, m) => run o m
    | finished => return finished

/-- Carries out what is planned. -/
def carryOut : Plan → IO UInt32
  | .done report => present report
  | .write path data report => save path data report
  | .run job => do
    let (result, m) ← run job.options job.machine
    present (job.report result m)
  | .undecodable => do
    IO.eprintln "Internal error: the input is not UTF-8"
    return 1
  | .unnameable => do
    IO.eprintln ("Internal error: " ++ unnameableReason)
    return 1

end MiniRisc.Main

open MiniRisc.Command in
def main (args : List String) : IO UInt32 := do
  match Request.ofArgs args with
  | .process o => MiniRisc.Main.carryOut (plan o (← MiniRisc.Main.readInput o.input))
  | .version => MiniRisc.Main.present versionReport
  | .help => MiniRisc.Main.present helpReport
  | .misuse => MiniRisc.Main.present misuseReport
