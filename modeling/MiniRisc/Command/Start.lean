import MiniRisc.Command.Report
/-! Command lines on stored files: what they read and write. Neither what keeps the files nor how
the arguments are read is fixed here. -/
namespace MiniRisc.Command

/-- Files by their paths. Writing one gives the files behind it, unless none can be written there.
-/
structure Storage (σ : Type) where
  read : σ → String → Reading
  write? : σ → String → List UInt8 → Option σ

inductive Started (σ : Type)
  | ended (report : Report) (files : σ)
  | running (job : Job)
  | undecodable
  | unnameable

section Storage
variable {σ : Type} (storage : Storage σ) (files : σ)

def Plan.start : Plan → Started σ
  | .done report => .ended report files
  | .write path data report =>
    match storage.write? files path data with
    | some files => .ended report files
    | none => .ended (failure [] ("cannot write " ++ path)) files
  | .run job => .running job
  | .undecodable => .undecodable
  | .unnameable => .unnameable

/-- Carries out a command line, whose arguments some reader has read. -/
def start (reader : List String → Request) (args : List String) : Started σ :=
  match reader args with
  | .process o => (plan o (storage.read files o.input)).start storage files
  | .version => .ended versionReport files
  | .help => .ended helpReport files
  | .misuse => .ended misuseReport files

end Storage

def Job.withInput (job : Job) (data : List UInt8) : Job :=
  let state := job.machine.state
  let console := { state.console with input := .bytes data }
  { job with machine := { job.machine with state := { state with console } } }

end MiniRisc.Command
