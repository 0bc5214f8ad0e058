import MiniRisc.Proofs.Token.Lossless
import MiniRisc.Token.Reader
/-! Tokens that are read one at a time. What a reader has still to give is the scan of the text
ahead of it, also where it stands before a line end that it has given, and each answer takes the
first token off that scan. -/
namespace MiniRisc

def Cursor.scan (cursor : Cursor) : Scan :=
  let (segments, obstacle) := Segment.all cursor.rest
  let tokens := Segment.tokens cursor.place segments
  let p := cursor.place.after (Segment.joined segments)
  match obstacle with
  | none => ⟨tokens ++ [⟨.textEnd, p⟩], none, ⟨[], p⟩⟩
  | some o => ⟨tokens, some (o.fault, p), ⟨o.rest, p.after o.text⟩⟩

def Scan.preceded (tokens : List Token) (scan : Scan) : Scan :=
  { scan with tokens := tokens ++ scan.tokens }

def Cursor.Step.scan : Cursor.Step → Scan
  | .token t _ after => after.scan.preceded [t]
  | .fault f p stop => ⟨[], some (f, p), stop⟩
  | .textEnd p => ⟨[⟨.textEnd, p⟩], none, ⟨[], p⟩⟩

def Scan.answers (lines : List String) (scan : Scan) : List Reader.Answer :=
  scan.tokens.map .token ++
    (scan.fault.map fun f => .failed (Scan.diagnose lines f.1 f.2)).toList

def Reader.answers : Nat → Reader → List Reader.Answer
  | 0, _ => []
  | n + 1, r => r.next.1 :: answers n r.next.2

/-- What a reader goes on with: its cursor, or the next line if it stands before a line end. -/
inductive Reader.GoesOn : Reader → Cursor → Prop
  | ready (lines : List String) (text : List Char) (cursor : Cursor) :
      GoesOn ⟨lines, text, cursor, .ready⟩ cursor
  | beforeLineEnd (lines : List String) (text rest : List Char) (p : Place) :
      GoesOn ⟨lines, text, ⟨'\n' :: rest, p⟩, .beforeLineEnd⟩ ⟨rest, p.step '\n'⟩

namespace Cursor
variable {c : Char} {cs : List Char} {p : Place} {cursor start after : Cursor} {t : Token}

theorem scan_nil (p : Place) : scan ⟨[], p⟩ = ⟨[⟨.textEnd, p⟩], none, ⟨[], p⟩⟩ := by
  rw [scan, Segment.all]
  rfl

theorem scan_of_error {fault : LexicalFault} (h : (Lexeme.cut c cs).found = .error fault) :
    scan ⟨c :: cs, p⟩ =
      ⟨[], some (fault, p), ⟨(Lexeme.cut c cs).rest, p.after (Lexeme.cut c cs).text⟩⟩ := by
  have hall : Segment.all (c :: cs) =
      ([], some ⟨fault, (Lexeme.cut c cs).text, (Lexeme.cut c cs).rest⟩) := by
    rw [Segment.all]
    split <;> simp_all
  rw [scan, hall]
  rfl

theorem scan_of_ok {piece : Lexeme.Piece} (h : (Lexeme.cut c cs).found = .ok piece) :
    scan ⟨c :: cs, p⟩ =
      (scan ⟨(Lexeme.cut c cs).rest, p.after (Lexeme.cut c cs).text⟩).preceded
        (Segment.token? ⟨piece, (Lexeme.cut c cs).text⟩ p).toList := by
  have hall : Segment.all (c :: cs) =
      (⟨piece, (Lexeme.cut c cs).text⟩ :: (Segment.all (Lexeme.cut c cs).rest).1,
        (Segment.all (Lexeme.cut c cs).rest).2) := by
    rw [Segment.all]
    split <;> simp_all
  have hjoined (segments : List Segment) :
      p.after (Segment.joined (⟨piece, (Lexeme.cut c cs).text⟩ :: segments)) =
        (p.after (Lexeme.cut c cs).text).after (Segment.joined segments) :=
    p.after_append ..
  rw [scan, scan, hall]
  dsimp only
  rw [hjoined]
  cases (Segment.all (Lexeme.cut c cs).rest).2 with
  | none => simp [Segment.tokens, Scan.preceded]
  | some o => rfl

/-- Looking for the next token loses none. -/
theorem scan_next (cursor : Cursor) : cursor.next.scan = cursor.scan := by
  fun_induction next cursor with
  | case1 p => exact (scan_nil p).symm
  | case2 c cs p after fault h => exact (scan_of_error h).symm
  | case3 c cs p after kind h => exact (scan_of_ok h).symm
  | case4 c cs p after h ih => rw [ih, scan_of_ok h]; rfl
  | case5 c cs p after h ih => rw [ih, scan_of_ok h]; rfl

/-- A line end is given with the cursor before its line feed. -/
theorem lineEnd_of_next (h : cursor.next = .token t start after) (ht : t.kind = .lineEnd) :
    start = ⟨'\n' :: after.rest, t.place⟩ ∧ after.place = t.place.step '\n' := by
  fun_induction next cursor with
  | case1 p => cases h
  | case2 c cs p behind fault hf => cases h
  | case3 c cs p behind kind hf =>
    obtain ⟨rfl, rfl, rfl⟩ := Step.token.inj h
    obtain rfl : kind = .lineEnd := ht
    have htext : (Lexeme.cut c cs).text = ['\n'] := text_of_lineEnd (Lexeme.construct_of_cut hf)
    have happend := Lexeme.cut_append c cs
    rw [htext] at happend
    refine ⟨by rw [← happend]; rfl, ?_⟩
    change p.after (Lexeme.cut c cs).text = _
    rw [htext]
    rfl
  | case4 c cs p behind hf ih => exact ih h
  | case5 c cs p behind hf ih => exact ih h

end Cursor

namespace Reader
variable {r : Reader} {cursor : Cursor}

/-- The next answer is read off what the reader goes on with. -/
theorem exists_read (h : r.GoesOn cursor) :
    ∃ ready : Reader, ready.cursor = cursor ∧ ready.lines = r.lines ∧ r.next = ready.read := by
  cases h <;> exact ⟨⟨_, _, _, .ready⟩, rfl, rfl, rfl⟩

private theorem answers_of_done (h : r.phase = .done) (n : Nat) :
    r.answers n = List.replicate n Answer.exhausted := by
  have hnext : r.next = (.exhausted, r) := by rw [next, h]
  induction n with
  | zero => rfl
  | succ n ih => rw [answers, hnext, ih, List.replicate_succ]

/-- Behind a token that is given, the reader goes on. -/
theorem read_of_token {t : Token} {start after : Cursor}
    (h : r.cursor.next = .token t start after) :
    r.read.1 = .token t ∧ r.read.2.lines = r.lines ∧ r.read.2.GoesOn after := by
  rw [read, h]
  dsimp only
  by_cases ht : t.kind = .lineEnd
  · obtain ⟨hstart, hplace⟩ := Cursor.lineEnd_of_next h ht
    obtain ⟨rest, p⟩ := after
    obtain rfl : p = t.place.step '\n' := hplace
    rw [if_pos ht, hstart]
    exact ⟨rfl, rfl, .beforeLineEnd ..⟩
  · rw [if_neg ht]
    exact ⟨rfl, rfl, .ready ..⟩

/-- The next answer is the first that the text ahead gives, and the reader goes on to the others, or
is done if there are none. -/
theorem next_of_goesOn (h : r.GoesOn cursor) : ∃ rest,
    cursor.scan.answers r.lines = r.next.1 :: rest ∧ r.next.2.lines = r.lines ∧
      (rest = [] ∧ r.next.2.phase = .done ∨
        ∃ after, r.next.2.GoesOn after ∧ after.scan.answers r.lines = rest) := by
  obtain ⟨ready, rfl, hlines, hread⟩ := exists_read h
  rw [hread, ← hlines, ← ready.cursor.scan_next]
  cases hnext : ready.cursor.next with
  | textEnd p =>
    rw [read, hnext]
    exact ⟨[], rfl, rfl, .inl ⟨rfl, rfl⟩⟩
  | fault f p stop =>
    rw [read, hnext]
    exact ⟨[], rfl, rfl, .inl ⟨rfl, rfl⟩⟩
  | token t start after =>
    obtain ⟨hanswer, hkept, hgoesOn⟩ := read_of_token hnext
    rw [hanswer]
    exact ⟨after.scan.answers ready.lines, rfl, hkept, .inr ⟨after, hgoesOn, rfl⟩⟩

/-- The answers of a reader are the tokens of the text ahead of it, then the diagnostic if reading
stops there, and from then on nothing more. -/
theorem answers_of_goesOn (h : r.GoesOn cursor) (n : Nat) :
    r.answers n = (cursor.scan.answers r.lines).take n ++
      List.replicate (n - (cursor.scan.answers r.lines).length) Answer.exhausted := by
  induction n generalizing r cursor with
  | zero => simp [answers]
  | succ n ih =>
    obtain ⟨rest, hall, hlines, hrest⟩ := next_of_goesOn h
    rw [answers, hall]
    rcases hrest with ⟨rfl, hdone⟩ | ⟨after, hgoesOn, rfl⟩
    · rw [answers_of_done hdone]
      simp
    · rw [ih hgoesOn, hlines]
      simp [Nat.add_sub_add_right]

theorem answers_ofSource (source : String) (n : Nat) :
    let all := (Scan.ofSource source).answers (Text.lines source)
    (ofSource source).answers n =
      all.take n ++ List.replicate (n - all.length) Answer.exhausted :=
  answers_of_goesOn (.ready ..) n

end Reader
end MiniRisc
