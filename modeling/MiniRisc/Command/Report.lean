import MiniRisc.Assembly.Session
import MiniRisc.Command.Options
import MiniRisc.Machine.Basic
import MiniRisc.Program.Image
import MiniRisc.Text.Line
/-! What a command line comes to: texts to show, a file to write, or a machine to run. Errors of
the program end with status 1, misuse and all other failures with status 2. -/
namespace MiniRisc.Command

structure Report where
  status : Nat := 0
  output : List UInt8 := []
  errors : String := ""
  deriving DecidableEq, Repr

inductive Reading
  | content (data : List UInt8)
  | absent
  /-- No file can have that path. -/
  | unnameable
  | failed (code : Nat) (reason : String)
  deriving DecidableEq, Repr

structure Job where
  options : Options
  machine : Machine

inductive Plan
  | done (report : Report)
  /-- Write a file; the report is shown if that succeeds. -/
  | write (path : String) (data : List UInt8) (report : Report)
  | run (job : Job)
  /-- The input is no text. -/
  | undecodable
  /-- No file can have the path of the input. -/
  | unnameable

/-- Product of a format: bytes, or text that is to end with a line end. -/
inductive Product
  | image (data : List UInt8)
  | text (text : String)

def utf8 (text : String) : List UInt8 := text.toUTF8.toList

namespace Product

/-- A product as it is shown. Text has one line end more. -/
def shown : Product → List UInt8
  | image data => data
  | text t => utf8 (t ++ "\n")

/-- A product as it is in a file. Text has one line end at least. -/
def filed : Product → List UInt8
  | image data => data
  | text t => utf8 (if t.toList.getLast? = some '\n' then t else t ++ "\n")

end Product

def isUnnameable (path : String) : Bool := path.toList.contains '\x00'

def unnameableReason : String := "embedded null byte"

namespace Options

def readsImage (o : Options) : Bool :=
  ".bin".toList.isSuffixOf (o.input.toList.map Char.toLower)

/-- The letters behind the last dot of a file name, in lower case. Dots that begin the name do
not count. -/
def extension (path : String) : String :=
  let name := (path.toList.reverse.takeWhile (· ≠ '/')).reverse.dropWhile (· = '.')
  if name.contains '.' then
    String.ofList ((name.reverse.takeWhile (· ≠ '.')).reverse.map Char.toLower)
  else ""

/-- The format asked for, or else the one that the name of the output stands for. -/
def chosenFormat (o : Options) : Format :=
  match o.format, o.output.map extension with
  | some format, _ => format
  | none, some "bin" => .image
  | none, some "lst" => .listing
  | none, _ => .run

def logText (o : Options) (entries : List Log.Entry) : String :=
  String.join ((entries.filter (·.shown o.verbose)).map (·.render ++ "\n"))

end Options

def failure (output : List UInt8) (reason : String) : Report :=
  { status := 2, output, errors := "Internal error: " ++ reason ++ "\n" }

def usage : String :=
  "usage: srisc [-h] [-o OUTPUT] [--format run|bin|listing|tokens] [--memory-size N]\n" ++
  "             [--max-steps N] [--unknown-syscall error|return] [--regs] [--trace]\n" ++
  "             [-v] [--version] input\n"

def misuseReport : Report := { status := 2, errors := usage }

def refusal (log kind reason : String) : Report :=
  { status := 1, errors := log ++ kind ++ " error: " ++ reason ++ "\n" }

/-- The report of a diagnostic, with the line it is about. A literal that is too long is no error of
the source text. -/
def diagnosticReport (log : String) (d : Diagnostic) : Report :=
  match d.cause with
  | .numeral fault => refusal log "Configuration" fault.message
  | _ =>
    let report := refusal log "Assembly" d.message
    if d.lineText = "" then report
    else { report with errors := report.errors ++ "    " ++ Text.trim d.lineText ++ "\n" }

/-- The report of a code fault. An absent operand and a number that is too long are no errors of a
program. -/
def codeReport (log : String) (f : CodeFault) : Report :=
  match f with
  | .missingOperand => failure [] f.message
  | .numeral fault => refusal log "Configuration" fault.message
  | _ => refusal log "Encoding" f.message

/-- Shows a product, or writes it to the output file, which must have a name if it is asked for. -/
def deliver (o : Options) (log errors : String) (product : Product) : Plan :=
  if .output ∈ o.valueless then .done (failure [] "the output has no name") else
  match o.output with
  | none => .done { output := product.shown, errors }
  | some path =>
    if isUnnameable path then .done (refusal log "Configuration" unnameableReason)
    else .write path product.filed { errors }

structure Loaded where
  program : Program
  statements : List Statement := []
  journal : List Log.Entry := []

def loadImage (log : List Log.Entry) (o : Options) (data : List UInt8) : Except Report Loaded :=
  match Program.ofImage data with
  | .ok program => .ok { program, journal := log }
  | .error f => .error (codeReport (o.logText log) f)

def loadText (log : List Log.Entry) (o : Options) (source : String) : Except Report Loaded :=
  match Statement.ofSource source with
  | .error d => .error (diagnosticReport (o.logText log) d)
  | .ok statements =>
    let journal := log ++ Assembly.journal statements
    match Assembly.program statements with
    | .error d => .error (diagnosticReport (o.logText journal) d)
    | .ok program => .ok { program, statements, journal }

/-- The settings of a machine, or the report why there are none. Of a memory or a limit without a
value nothing can be said but that it fails. -/
def settingsFor (log : String) (o : Options) : Except Report Settings := do
  let invalid (v : InvalidValue) : Report := refusal log "Configuration" v.message
  if .memorySize ∈ o.valueless then .error (failure [] "the memory has no size")
  let settings ← (Settings.make o.memorySize o.stepLimit o.policy.name).mapError invalid
  if .stepLimit ∈ o.valueless then .error (failure [] "the limit has no number")
  if .policy ∈ o.valueless then .error (invalid .noPolicy)
  return settings

def machinePlan (o : Options) (loaded : Loaded) : Plan :=
  match settingsFor (o.logText loaded.journal) o with
  | .error report => .done report
  | .ok settings =>
    match Machine.start? loaded.program settings {} with
    | none => .done (failure [] "the memory is too large")
    | some machine => .run ⟨o, { machine.log loaded.journal with tracing := o.trace }⟩

def textNeeded (format : Format) : Report :=
  { misuseReport with
    errors := "srisc: --format " ++ format.name ++ " needs an assembly source input\n" }

def programPlan (o : Options) (loaded : Loaded) : Plan :=
  let log := o.logText loaded.journal
  match o.chosenFormat with
  | .image =>
    match loaded.program.toImage with
    | .error f => .done (codeReport log f)
    | .ok data =>
      let size := loaded.program.size
      let entry : Log.Entry := ⟨.command, .debug, "wrote " ++ Text.decimal size ++
        " instructions (" ++ Text.decimal (4 * size : Nat) ++ " bytes)"⟩
      deliver o log (o.logText (loaded.journal ++ [entry])) (.image data)
  | .listing =>
    if o.readsImage then .done (textNeeded .listing)
    else
      match Assembly.listing loaded.program loaded.statements with
      | .error f => .done (codeReport log f)
      | .ok text => deliver o log log (.text text)
  | .run | .tokens => machinePlan o loaded

def tokenPlan (log : List Log.Entry) (o : Options) (source : String) : Plan :=
  match Token.ofSource source with
  | .error d => .done (diagnosticReport (o.logText log) d)
  | .ok tokens =>
    deliver o (o.logText log) (o.logText log) (.text ("\n".intercalate (tokens.map Token.render)))

def contentPlan (o : Options) (data : List UInt8) : Plan :=
  let log : List Log.Entry :=
    [⟨.command, .debug, "input " ++ o.input ++ ", format " ++ o.chosenFormat.name⟩]
  let finish : Except Report Loaded → Plan
    | .error report => .done report
    | .ok loaded => programPlan o loaded
  if o.readsImage then
    if o.chosenFormat = .tokens then .done (textNeeded .tokens)
    else finish (loadImage log o data)
  else
    match String.fromUTF8? ⟨data.toArray⟩ with
    | none => .undecodable
    | some source =>
      if o.chosenFormat = .tokens then tokenPlan log o source
      else finish (loadText log o source)

def plan (o : Options) : Reading → Plan
  | .absent => .done { status := 1, errors := "Error: File not found: " ++ o.input ++ "\n" }
  | .failed code reason => .done
      { status := 1
        errors := "Error reading " ++ o.input ++ ": [Errno " ++ Text.decimal code ++ "] " ++
          reason ++ ": " ++ Text.quoted o.input ++ "\n" }
  | .unnameable => .unnameable
  | .content data => contentPlan o data

def Job.report (job : Job) (result : Except Trouble Stop) (m : Machine) : Report :=
  let o := job.options
  let output := m.state.console.written.toList
  let limit := m.settings.stepLimit.map Int.ofNat
  let dump := m.state.registers.dump ++ "\n"
  match result with
  | .ok stop =>
    let log := o.logText (m.journal.toList ++ [m.conclusion limit stop])
    let trace := if o.trace then "\n".intercalate m.trace.toList ++ "\n" else ""
    let stopped := match stop with
      | .halted => ""
      | .limitReached => "Stopped: step limit of " ++ Text.decimal (limit.getD 0) ++ " reached\n"
    { output, errors := log ++ trace ++ stopped ++ if o.showRegisters then dump else "" }
  | .error (.fault f) =>
    let report := refusal (o.logText m.journal.toList) "Runtime" f.message
    { report with output, errors := report.errors ++ dump }
  | .error (.defect d) => failure output d.message

def versionReport : Report := { output := utf8 "srisc 0.1.0\n" }

def helpReport : Report := { output := utf8 usage }

end MiniRisc.Command
