import MiniRisc.Assembly.Basic
import MiniRisc.InvalidValue
import MiniRisc.Log
import MiniRisc.Program.Image
/-! Assembly of one source after another, what a source can be asked for by name, and what is
logged. A session keeps the last program, unless the last attempt failed, and the labels of the last
attempt that came so far as to bind them. A listing has a heading of two rows and one row for every
statement, with the index and the word of its instruction, if it has one, and its text. -/
namespace MiniRisc.Assembly

def row (index word text : String) : String :=
  Text.padLeft ' ' 5 index ++ "  " ++ Text.padRight 8 word ++ "  " ++ text

def heading : List String :=
  [row "INDEX" "WORD" "SOURCE", String.ofList (List.replicate 60 '-')]

/-- Rows of statements, of which those with a body are numbered from an index on. -/
def rows (operations : List Operation) (index : Nat) :
    List Statement → Except CodeFault (List String)
  | [] => .ok []
  | s :: rest =>
    match s.body, operations with
    | some _, o :: operations => do
      let word ← Code.encode o index
      return row (Text.decimal index) (Text.padLeft '0' 8 (Text.hex word)) s.text ::
        (← rows operations (index + 1) rest)
    | _, _ => do return row "" "" s.text :: (← rows operations index rest)

def listing (p : Program) (statements : List Statement) : Except CodeFault String := do
  return "\n".intercalate (heading ++ (← rows p.operations 0 statements))

structure Session where
  labels : LabelTable := []
  program : Option Program := none
  statements : List Statement := []

namespace Session

def assembleStatements (_ : Session) (statements : List Statement) :
    Except Diagnostic Program × Session :=
  let result := Assembly.program statements
  (result, ⟨(bindLabels [] 0 statements).1, result.toOption, statements⟩)

def assemble (session : Session) (source : String) : Except Diagnostic Program × Session :=
  match Statement.ofSource source with
  | .error d => (.error d, { session with program := none })
  | .ok statements => session.assembleStatements statements

/-- The listing of the last program; without one it is empty. -/
def listing (session : Session) : Except CodeFault String :=
  match session.program with
  | none => .ok ""
  | some p => Assembly.listing p session.statements

end Session

inductive Output
  | program (program : Program)
  | image (data : List UInt8)
  | listing (text : String)

inductive Failure
  | diagnostic (d : Diagnostic)
  | code (fault : CodeFault)
  | invalid (value : InvalidValue)

/-- Assembles a source text for an output of a name. The name is looked at last. -/
def outputOf (source kind : String) : Except Failure Output := do
  let (result, session) := Session.assemble {} source
  let program ← result.mapError .diagnostic
  match kind with
  | "program" => return .program program
  | "binary" => return .image (← program.toImage.mapError .code)
  | "listing" => return .listing (← session.listing.mapError .code)
  | _ => .error (.invalid (.outputKind kind))

/-- Entries of the assembly of statements: the labels once all are bound, and the program once it
is complete. -/
def journal (statements : List Statement) : List Log.Entry :=
  match bindLabels [] 0 statements with
  | (_, some _) => []
  | (labels, none) =>
    let bound : Log.Entry := ⟨.assembler, .debug,
      "pass 1: " ++ Text.decimal statements.length ++ " statements, " ++
        Text.decimal labels.length ++ " labels"⟩
    match resolve labels statements with
    | .error _ => [bound]
    | .ok instructions => [bound, ⟨.assembler, .info,
        "assembled " ++ Text.decimal instructions.length ++ " instructions"⟩]

end MiniRisc.Assembly
