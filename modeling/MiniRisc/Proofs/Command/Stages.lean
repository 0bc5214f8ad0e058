import MiniRisc.Assembly.Session
import MiniRisc.Command.Report
import MiniRisc.Proofs.Assembly.Resolution
/-! The stages of a command line without what they show: what the input is made into, or the first
failure on the way. -/
namespace MiniRisc.Command

inductive Failure
  | assembly (d : Diagnostic)
  | encoding (f : CodeFault)
  | configuration (v : InvalidValue)
  | execution (f : Fault)
  | numeral (fault : Text.NumeralFault)
  /-- No file can have the path of the output. -/
  | unnameableOutput
  /-- Every other failure. -/
  | internal

namespace Failure

def status : Failure → Nat
  | internal => 2
  | _ => 1

/-- A diagnostic as a failure. A literal that is too long is no error of the source text. -/
def ofDiagnostic (d : Diagnostic) : Failure :=
  match d.cause with
  | .numeral fault => numeral fault
  | _ => assembly d

/-- A code fault as a failure. An absent operand is no error of a program, and neither is a number
that is too long. -/
def ofCode (f : CodeFault) : Failure :=
  match f with
  | .missingOperand => internal
  | .numeral fault => numeral fault
  | _ => encoding f

end Failure

inductive Content
  | image (data : List UInt8)
  | text (source : String)

def Options.content? (o : Options) (data : List UInt8) : Option Content :=
  if o.readsImage then some (.image data) else (String.fromUTF8? ⟨data.toArray⟩).map .text

namespace Content

def program : Content → Except Failure Program
  | .image data => (Program.ofImage data).mapError .ofCode
  | .text source => (Program.ofSource source).mapError .ofDiagnostic

def tokens : Content → Except Failure (List Token)
  | .image _ => .error .internal
  | .text source => (Token.ofSource source).mapError .ofDiagnostic

def listing : Content → Except Failure String
  | .image _ => .error .internal
  | .text source => ((({} : Assembly.Session).assemble source).2.listing).mapError .ofCode

end Content

/-- What an input is made into: a product, or a program to run. -/
inductive Goods
  | product (product : Product)
  | run (p : Program) (settings : Settings)

namespace Options

def settings (o : Options) : Except Failure Settings := do
  if .memorySize ∈ o.valueless then .error .internal
  let settings ← (Settings.make o.memorySize o.stepLimit o.policy.name).mapError .configuration
  if .stepLimit ∈ o.valueless then .error .internal
  if .policy ∈ o.valueless then .error (.configuration .noPolicy)
  return settings

def ready (p : Program) (settings : Settings) : Except Failure Goods :=
  if settings.memorySize < Memory.sizeLimit then .ok (.run p settings) else .error .internal

def goods (o : Options) (c : Content) : Except Failure Goods :=
  match o.chosenFormat with
  | .tokens => do
    return .product (.text ("\n".intercalate ((← c.tokens).map Token.render)))
  | .image => do
    return .product (.image (← (← c.program).toImage.mapError .ofCode))
  | .listing => do
    let _ ← c.program
    return .product (.text (← c.listing))
  | .run => do
    ready (← c.program) (← o.settings)

def machine (o : Options) (p : Program) (settings : Settings) (stdin : List UInt8) : Machine :=
  { Machine.start p settings { input := .bytes stdin } with tracing := o.trace }

end Options
end MiniRisc.Command
