import MiniRisc.Token.Scan
/-! Reading tokens one at a time. A reader keeps one cursor in its text: asking for one token
moves it on, starting again moves it to the front, and taking all tokens at once moves it to the
end, whatever it was about to read. -/
namespace MiniRisc

/-- What comes next at a cursor. A token is given with the cursors before and behind it. -/
inductive Cursor.Step
  | token (token : Token) (start after : Cursor)
  | fault (fault : LexicalFault) (place : Place) (stop : Cursor)
  | textEnd (place : Place)

def Cursor.next (cursor : Cursor) : Cursor.Step :=
  match cursor with
  | ⟨[], p⟩ => .textEnd p
  | ⟨c :: cs, p⟩ =>
    let after : Cursor := ⟨(Lexeme.cut c cs).rest, p.after (Lexeme.cut c cs).text⟩
    match _h : (Lexeme.cut c cs).found with
    | .error fault => .fault fault p after
    | .ok (.token kind) => .token ⟨kind, p⟩ ⟨c :: cs, p⟩ after
    | .ok .blank | .ok .comment => after.next
termination_by cursor.rest.length
decreasing_by all_goals exact Lexeme.length_rest_lt _h

/-- How far a reader has come: ready to look at its cursor, still before the line end it has
given, or done. -/
inductive Reader.Phase
  | ready
  | beforeLineEnd
  | done
  deriving DecidableEq, Repr

structure Reader where
  lines : List String
  text : List Char
  cursor : Cursor
  phase : Reader.Phase

inductive Reader.Answer
  | token (token : Token)
  | exhausted
  | failed (d : Diagnostic)
  /-- The line end to be passed is no longer ahead. -/
  | displaced

namespace Reader

def ofSource (source : String) : Reader :=
  let text := Text.foldNewlines source.toList
  ⟨Text.lines source, text, ⟨text, {}⟩, .ready⟩

def restart (r : Reader) : Reader :=
  { r with cursor := ⟨r.text, {}⟩, phase := .ready }

/-- Reads on from the cursor. A line end is given before it is passed. -/
def read (r : Reader) : Answer × Reader :=
  match r.cursor.next with
  | .textEnd p => (.token ⟨.textEnd, p⟩, { r with cursor := ⟨[], p⟩, phase := .done })
  | .fault fault p stop =>
    (.failed (Scan.diagnose r.lines fault p), { r with cursor := stop, phase := .done })
  | .token token start after =>
    if token.kind = .lineEnd then
      (.token token, { r with cursor := start, phase := .beforeLineEnd })
    else (.token token, { r with cursor := after, phase := .ready })

def next (r : Reader) : Answer × Reader :=
  match r.phase, r.cursor with
  | .done, _ => (.exhausted, r)
  | .ready, _ => r.read
  | .beforeLineEnd, ⟨[], _⟩ => (.displaced, { r with phase := .done })
  | .beforeLineEnd, ⟨c :: cs, p⟩ => { r with cursor := ⟨cs, p.step c⟩, phase := .ready }.read

/-- All tokens from the front. What the reader was about to do stays, its cursor does not. -/
def takeAll (r : Reader) : Except Diagnostic (List Token) × Reader :=
  let scan := Scan.ofChars r.text
  (scan.result r.lines, { r with cursor := scan.stop })

def lineAt (r : Reader) (n : Int) : String := Text.lineAt r.lines n

end Reader
end MiniRisc
