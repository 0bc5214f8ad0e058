import MiniRisc.Text.Quoted
/-! Tokens of assembly text and the places they stand at. Lines and columns count from 1. -/
namespace MiniRisc

structure Place where
  line : Int := 1
  column : Int := 1
  deriving DecidableEq, Repr

namespace Place

def step (p : Place) (c : Char) : Place :=
  if c = '\n' then ⟨p.line + 1, 1⟩ else ⟨p.line, p.column + 1⟩

def after (p : Place) (text : List Char) : Place := text.foldl step p

theorem after_append (p : Place) (front back : List Char) :
    p.after (front ++ back) = (p.after front).after back := by
  simp [after]

end Place

inductive Mark
  | comma | colon | openBracket | closeBracket
  deriving DecidableEq, Repr

namespace Mark

def char : Mark → Char
  | comma => ',' | colon => ':' | openBracket => '[' | closeBracket => ']'

def ofChar? : Char → Option Mark
  | ',' => some comma | ':' => some colon
  | '[' => some openBracket | ']' => some closeBracket
  | _ => none

def title : Mark → String
  | comma => "COMMA" | colon => "COLON" | openBracket => "LBRACKET" | closeBracket => "RBRACKET"

theorem ofChar?_eq_some_iff {c : Char} {m : Mark} : ofChar? c = some m ↔ c = m.char := by
  constructor
  · intro h
    unfold ofChar? at h
    split at h <;> simp_all [char] <;> subst h <;> rfl
  · rintro rfl; cases m <;> rfl

end Mark

/-- What a token is. An integer is kept as its unsigned 32-bit pattern. -/
inductive Token.Kind
  | integer (pattern : Nat)
  | name (text : String)
  | mark (mark : Mark)
  | lineEnd
  | textEnd
  deriving DecidableEq, Repr

namespace Token.Kind

def title : Kind → String
  | integer _ => "INT_LITERAL"
  | name _ => "IDENT"
  | mark m => m.title
  | lineEnd => "NEWLINE"
  | textEnd => "EOF"

/-- The text that stands for the token; an integer's is its decimal pattern. -/
def text : Kind → String
  | integer pattern => Text.decimal pattern
  | name text => text
  | mark m => m.char.toString
  | lineEnd => "\n"
  | textEnd => ""

/-- The value as messages show it: an integer bare, all else between quotation marks. -/
def shown (kind : Kind) : String :=
  match kind with
  | integer _ => kind.text
  | _ => Text.quoted kind.text

def endsLine : Kind → Bool
  | lineEnd | textEnd => true
  | _ => false

end Token.Kind

structure Token where
  kind : Token.Kind
  place : Place
  deriving DecidableEq, Repr

namespace Token

def render (t : Token) : String :=
  "Token(" ++ t.kind.title ++ ", " ++ t.kind.shown ++ ", L" ++ Text.decimal t.place.line ++ ":" ++
    Text.decimal t.place.column ++ ")"

end Token
end MiniRisc
