import MiniRisc.Text.Line
import MiniRisc.Token.Lexeme
/-! A text as a sequence of constructs, and the tokens among them at their places. The constructs,
and what could not be read behind them, always make up the text. -/
namespace MiniRisc

structure Segment where
  piece : Lexeme.Piece
  text : List Char
  deriving DecidableEq, Repr

/-- What cannot be read: the fault, the characters passed over to find it, and those left. -/
structure Obstacle where
  fault : LexicalFault
  text : List Char
  rest : List Char
  deriving DecidableEq, Repr

namespace Segment

def all : List Char → List Segment × Option Obstacle
  | [] => ([], none)
  | c :: cs =>
    match _h : (Lexeme.cut c cs).found with
    | .error fault => ([], some ⟨fault, (Lexeme.cut c cs).text, (Lexeme.cut c cs).rest⟩)
    | .ok piece =>
      let behind := all (Lexeme.cut c cs).rest
      (⟨piece, (Lexeme.cut c cs).text⟩ :: behind.1, behind.2)
termination_by text => text.length
decreasing_by exact Lexeme.length_rest_lt _h

def token? (s : Segment) (p : Place) : Option Token :=
  match s.piece with
  | .token kind => some ⟨kind, p⟩
  | _ => none

def tokens (p : Place) : List Segment → List Token
  | [] => []
  | s :: rest => (s.token? p).toList ++ tokens (p.after s.text) rest

def joined (segments : List Segment) : List Char := segments.flatMap (·.text)

end Segment

def Obstacle.unread : Option Obstacle → List Char
  | none => []
  | some o => o.text ++ o.rest

/-- Nothing is lost: constructs and unread characters are the text. -/
theorem Segment.joined_append_unread (text : List Char) :
    joined (all text).1 ++ Obstacle.unread (all text).2 = text := by
  fun_induction all text with
  | case1 => rfl
  | case2 c cs fault h => simp [joined, Obstacle.unread, Lexeme.cut_append]
  | case3 c cs piece h behind ih =>
    simp only [joined, List.flatMap_cons, List.append_assoc] at ih ⊢
    rw [ih, Lexeme.cut_append]

end MiniRisc
