import MiniRisc.Statement.Basic
import MiniRisc.Text.Line
import MiniRisc.Token.Scan
/-! Statements from tokens, a line at a time. A line's tokens are taken from the front; the first
that does not fit is refused, and it and those behind it stay where they are. -/
namespace MiniRisc.Statement

/-- The tokens of a line that are still to be taken, and the one that ends the line. -/
structure LineTokens where
  ahead : List Token
  stop : Token

structure Refusal where
  fault : SyntaxFault
  token : Token

abbrev Taking := EStateM Refusal LineTokens

namespace Taking

def current : Taking Token := return ((← get).ahead.headD (← get).stop)

def following : Taking Token := return ((← get).ahead.tail.headD (← get).stop)

def advance : Taking Unit := modify fun line => { line with ahead := line.ahead.tail }

def refuse {α : Type} (fault : SyntaxFault) : Taking α := do throw ⟨fault, ← current⟩

def register? : Token.Kind → Option Register
  | .name word => Register.ofName? word
  | _ => none

def register : Taking Register := do
  match register? (← current).kind with
  | some r => advance; return r
  | none => refuse .registerExpected

def source : Taking Source := do
  let kind := (← current).kind
  match kind, register? kind with
  | .integer pattern, _ => advance; return .immediate pattern
  | _, some r => advance; return .register r
  | _, none => refuse .sourceExpected

def mark (m : Mark) : Taking Unit := do
  if (← current).kind = .mark m then advance else refuse (.markExpected m)

def displacement : Taking Nat := do
  match (← current).kind with
  | .integer pattern => advance; return pattern
  | _ => refuse .displacementExpected

def label : Taking String := do
  match (← current).kind with
  | .name word =>
    if Vocabulary.isReserved word then refuse .labelExpected else advance; return word
  | _ => refuse .labelExpected

def operands : (shape : Shape) → Taking (Operands shape)
  | .three => do
    let target ← register
    mark .comma
    let left ← register
    mark .comma
    return .three target left (← source)
  | .two => do
    let register ← register
    mark .comma
    return .two register (← source)
  | .address => do
    let data ← register
    mark .comma
    let displacement ← displacement
    mark .openBracket
    let base ← register
    mark .closeBracket
    return .address data displacement base
  | .branch => return .branch (← label)
  | .bare => return .bare

/-- A mnemonic and its operands. A modifier must be legal for the operation, and there must be an
immediate for it to widen. -/
def body (labelled : Bool) : Taking Body := do
  let first ← current
  match first.kind with
  | .name word =>
    match Vocabulary.splitMnemonic? word with
    | none =>
      if !labelled && (← following).kind.endsLine then refuse (.colonMissing word)
      else refuse (.unknownMnemonic word)
    | some (op, modifier) =>
      if modifier ≠ .signed ∧ op.modifiable = false then refuse (.modifierRefused modifier op)
      else
        advance
        let operands ← operands op.shape
        if modifier ≠ .signed ∧ operands.endsWithImmediate = false then
          throw ⟨.modifierIdle modifier, first⟩
        else return ⟨op, modifier, operands⟩
  | _ => refuse .statementExpected

def definition? : Taking (Option String) := do
  match (← current).kind with
  | .name word =>
    if (← following).kind = .mark .colon then
      if Vocabulary.isReserved word then refuse (.reservedLabel word)
      else advance; advance; return some word
    else return none
  | _ => return none

def finish : Taking Unit := do
  let kind := (← current).kind
  if kind.endsLine then return () else refuse (.trailing kind)

def statement? (lines : List String) : Taking (Option Statement) := do
  let first ← current
  if first.kind.endsLine then return none
  else
    let text := Text.trim (Text.lineAt lines first.place.line)
    let label ← definition?
    if label.isSome && (← current).kind.endsLine then
      return some ⟨first.place.line, text, label, none⟩
    else
      let body ← body label.isSome
      finish
      return some ⟨first.place.line, text, label, some body⟩

end Taking

/-- The tokens of the first line, and the rest from the token that ends it. -/
def splitLine (tokens : List Token) : List Token × List Token :=
  (tokens.takeWhile (!·.kind.endsLine), tokens.dropWhile (!·.kind.endsLine))

def behind : List Token → List Token
  | [] => []
  | stop :: rest => if stop.kind = .textEnd then stop :: rest else rest

/-- The statement of the first line, and the tokens left. Of a refused line the refused token and
those behind it are left. -/
def ofLine? (lines : List String) (tokens : List Token) :
    Except Diagnostic (Option Statement) × List Token :=
  let (front, rest) := splitLine tokens
  match (Taking.statement? lines).run ⟨front, rest.headD ⟨.textEnd, {}⟩⟩ with
  | .ok statement _ => (.ok statement, behind rest)
  | .error refusal line =>
    (.error (.grammatical refusal.fault refusal.token
      (Text.lineAt lines refusal.token.place.line)), line.ahead ++ rest)

private theorem length_behind_le (tokens : List Token) :
    (behind tokens).length ≤ tokens.length := by
  cases tokens with
  | nil => exact Nat.le_refl _
  | cons stop rest => rw [behind]; split <;> simp

/-- A line that does not begin with the end of the text takes at least one token. -/
theorem length_behind_lt {t : Token} {tokens : List Token} (h : t.kind ≠ .textEnd) :
    (behind (splitLine (t :: tokens)).2).length < (t :: tokens).length := by
  by_cases he : t.kind.endsLine
  · simp [splitLine, he, behind, h]
  · have hs := (tokens.dropWhile_suffix (!·.kind.endsLine)).length_le
    have hb := length_behind_le (tokens.dropWhile (!·.kind.endsLine))
    simp only [splitLine, List.dropWhile_cons, he, List.length_cons]
    simp only [Bool.not_false, ↓reduceIte, gt_iff_lt]
    omega

/-- The statements of all lines up to the end of the text, or the first refusal. -/
def ofTokens (lines : List String) : List Token → Except Diagnostic (List Statement)
  | [] => .ok []
  | t :: tokens =>
    if _h : t.kind = .textEnd then .ok []
    else
      match (ofLine? lines (t :: tokens)).1 with
      | .error d => .error d
      | .ok none => ofTokens lines (behind (splitLine (t :: tokens)).2)
      | .ok (some s) => (ofTokens lines (behind (splitLine (t :: tokens)).2)).map (s :: ·)
termination_by tokens => tokens.length
decreasing_by all_goals exact length_behind_lt _h

def ofSource (source : String) : Except Diagnostic (List Statement) := do
  ofTokens (Text.lines source) (← Token.ofSource source)

end MiniRisc.Statement
