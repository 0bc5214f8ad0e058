import MiniRisc.Proofs.Statement.Taking
/-! Statements from tokens by position. A walk looks tokens up where it stands, whether or not there
are as many, and is told by name what each operand is to be. -/
namespace MiniRisc.Statement

/-- Why a walk ends early: a token is refused, nothing is at a position, no operands have a name, or
a line ends where it began. -/
inductive Walking.Halt
  | refused (d : Diagnostic)
  | noSuchPosition (position : Nat)
  | noSuchOperands (name : String)
  | stuck

abbrev Walking := EStateM Walking.Halt Nat

structure Flat where
  line : Int
  text : String
  label : Option String
  body : Option (Opcode × Modifier × List Operand)

def Body.flat (b : Body) : Opcode × Modifier × List Operand :=
  (b.op, b.modifier, b.operands.toList)

def flat (s : Statement) : Flat := ⟨s.line, s.text, s.label, s.body.map Body.flat⟩

namespace Walking

section Walk
variable {α : Type} (lines : List String) (tokens : List Token)

def tokenAt (position : Nat) : Walking Token :=
  match tokens[position]? with
  | some t => return t
  | none => throw (.noSuchPosition position)

def current : Walking Token := do tokenAt tokens (← get)

/-- The token behind the current one; behind the last there is the last again. -/
def following : Walking Token := do
  let position := (← get) + 1
  tokenAt tokens (if position < tokens.length then position else tokens.length - 1)

def advance : Walking Unit := do
  let position ← get
  let _ ← tokenAt tokens position
  if position + 1 < tokens.length then set (position + 1)

def refuse (fault : SyntaxFault) : Walking α := do
  let t ← current tokens
  throw (.refused (.grammatical fault t (Text.lineAt lines t.place.line)))

def one (meaning? : Token.Kind → Option α) (fault : SyntaxFault) : Walking α := do
  match meaning? (← current tokens).kind with
  | some a => advance tokens; return a
  | none => refuse lines tokens fault

def register : Walking Register := one lines tokens Taking.register? .registerExpected

def mark (m : Mark) : Walking Unit := one lines tokens (Taking.mark? m) (.markExpected m)

def operand (name : String) : Walking Operand :=
  match name with
  | "reg" => return .register (← register lines tokens)
  | "reg/imm" => return (← one lines tokens Taking.source? .sourceExpected).operand
  | "imm[reg]" => do
    let displacement ← one lines tokens Taking.displacement? .displacementExpected
    mark lines tokens .openBracket
    let base ← register lines tokens
    mark lines tokens .closeBracket
    return .address displacement base
  | "label" => return .label (← one lines tokens Taking.label? .labelExpected)
  | _ => throw (.noSuchOperands name)

def operandNames : Shape → List String
  | .three => ["reg", "reg", "reg/imm"]
  | .two => ["reg", "reg/imm"]
  | .address => ["reg", "imm[reg]"]
  | .branch => ["label"]
  | .bare => []

def moreOperands : List String → Walking (List Operand)
  | [] => return []
  | name :: rest => do
    mark lines tokens .comma
    let operand ← operand lines tokens name
    return operand :: (← moreOperands rest)

def operands : List String → Walking (List Operand)
  | [] => return []
  | name :: rest => do
    let operand ← operand lines tokens name
    return operand :: (← moreOperands lines tokens rest)

def endsWithImmediate (operands : List Operand) : Bool :=
  match operands.getLast? with
  | some (.immediate _) => true
  | _ => false

def body (labelled : Bool) : Walking (Opcode × Modifier × List Operand) := do
  let first ← current tokens
  match first.kind with
  | .name word =>
    match Vocabulary.splitMnemonic? word with
    | none =>
      if !labelled && (← following tokens).kind.endsLine then
        refuse lines tokens (.colonMissing word)
      else refuse lines tokens (.unknownMnemonic word)
    | some (op, modifier) =>
      if modifier ≠ .signed ∧ op.modifiable = false then
        refuse lines tokens (.modifierRefused modifier op)
      else
        advance tokens
        let operands ← operands lines tokens (operandNames op.shape)
        if modifier ≠ .signed ∧ endsWithImmediate operands = false then
          throw (.refused (.grammatical (.modifierIdle modifier) first
            (Text.lineAt lines first.place.line)))
        else return (op, modifier, operands)
  | _ => refuse lines tokens .statementExpected

def definition? : Walking (Option String) := do
  match (← current tokens).kind with
  | .name word =>
    if (← following tokens).kind = .mark .colon then
      if Vocabulary.isReserved word then refuse lines tokens (.reservedLabel word)
      else advance tokens; advance tokens; return some word
    else return none
  | _ => return none

def finish : Walking Unit := do
  let kind := (← current tokens).kind
  if kind = .lineEnd then advance tokens
  else if kind = .textEnd then return ()
  else refuse lines tokens (.trailing kind)

def statement? : Walking (Option Flat) := do
  let first ← current tokens
  if first.kind.endsLine then finish lines tokens; return none
  else
    let text := Text.trim (Text.lineAt lines first.place.line)
    let label ← definition? lines tokens
    if label.isSome && (← current tokens).kind.endsLine then
      finish lines tokens
      return some ⟨first.place.line, text, label, none⟩
    else
      let body ← body lines tokens label.isSome
      finish lines tokens
      return some ⟨first.place.line, text, label, some body⟩

def statements (position : Nat) : Except Halt (List Flat) :=
  match _ht : tokens[position]? with
  | none => .error (.noSuchPosition position)
  | some t =>
    if t.kind = .textEnd then .ok []
    else
      match (statement? lines tokens).run position with
      | .error halt _ => .error halt
      | .ok s position' =>
        if _hp : position < position' then (statements position').map (s.toList ++ ·)
        else .error .stuck
termination_by tokens.length - position
decreasing_by
  have := (List.getElem?_eq_some_iff.1 _ht).1
  omega

end Walk

end Walking
end MiniRisc.Statement
