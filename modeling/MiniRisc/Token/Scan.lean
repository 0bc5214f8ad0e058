import MiniRisc.Token.Segment
/-! All tokens of a text. They end with the end of the text, or before the first construct that
cannot be read. -/
namespace MiniRisc

structure Cursor where
  rest : List Char
  place : Place := {}
  deriving DecidableEq, Repr

/-- The tokens of a text, the fault that stopped reading with its place, and where it stopped. -/
structure Scan where
  tokens : List Token
  fault : Option (LexicalFault × Place)
  stop : Cursor
  deriving DecidableEq, Repr

namespace Scan

def ofChars (text : List Char) : Scan :=
  let (segments, obstacle) := Segment.all text
  let tokens := Segment.tokens {} segments
  let p := Place.after {} (Segment.joined segments)
  match obstacle with
  | none => ⟨tokens ++ [⟨.textEnd, p⟩], none, ⟨[], p⟩⟩
  | some o => ⟨tokens, some (o.fault, p), ⟨o.rest, p.after o.text⟩⟩

def ofSource (source : String) : Scan :=
  ofChars (Text.foldNewlines source.toList)

/-- The diagnostic of a fault, with the line it is on unless a number is too long. -/
def diagnose (lines : List String) (fault : LexicalFault) (p : Place) : Diagnostic :=
  match fault with
  | .numeral long => { cause := .numeral long }
  | fault => .lexical fault p (Text.lineAt lines p.line)

theorem diagnose_cases (lines : List String) (fault : LexicalFault) (p : Place) :
    (∃ long, fault = .numeral long ∧ diagnose lines fault p = { cause := .numeral long }) ∨
      (∀ long, fault ≠ .numeral long) ∧
        diagnose lines fault p = .lexical fault p (Text.lineAt lines p.line) := by
  cases fault with
  | numeral long => exact .inl ⟨long, rfl, rfl⟩
  | _ => exact .inr ⟨nofun, rfl⟩

def result (scan : Scan) (lines : List String) : Except Diagnostic (List Token) :=
  match scan.fault with
  | none => .ok scan.tokens
  | some (fault, p) => .error (diagnose lines fault p)

end Scan

def Token.ofSource (source : String) : Except Diagnostic (List Token) :=
  (Scan.ofSource source).result (Text.lines source)

end MiniRisc
