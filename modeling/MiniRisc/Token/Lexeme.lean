import MiniRisc.Diagnostic
import MiniRisc.Text.Digits
/-! The constructs of assembly text. One is cut off the front of a text at a time, and what is cut
off and what is left always make up the text. -/
namespace MiniRisc.Lexeme

/-- What a construct is. Blanks and comments stand between tokens. -/
inductive Piece
  | blank
  | comment
  | token (kind : Token.Kind)
  deriving DecidableEq, Repr

/-- The result of looking at the front of a text: the construct there or the fault found, the
characters that were passed over, and what follows them. -/
structure Cut where
  found : Except LexicalFault Piece
  text : List Char
  rest : List Char

def isSpace (c : Char) : Bool := c = ' ' || c = '\t' || c = '\x0b' || c = '\x0c'

def startsName (c : Char) : Bool := c.isAlpha || c = '$' || c = '_' || c = '.'

def continuesName (c : Char) : Bool := c.isAlphanum || c = '$' || c = '_' || c = '.'

def isSign (c : Char) : Bool := c = '+' || c = '-'

def closeComment : List Char → Option (List Char × List Char)
  | [] => none
  | c :: rest =>
    if c = '*' ∧ rest.head? = some '/' then some (['*', '/'], rest.tail)
    else (closeComment rest).map fun (inner, after) => (c :: inner, after)

/-- A comment that is never closed is searched up to its last character. -/
def cutComment (body : List Char) : Cut :=
  match closeComment body with
  | some (inner, after) => ⟨.ok .comment, '/' :: '*' :: inner, after⟩
  | none =>
    ⟨.error .unterminatedComment, '/' :: '*' :: body.dropLast, body.drop (body.length - 1)⟩

def cutSign : List Char → List Char × List Char
  | [] => ([], [])
  | c :: rest => if isSign c then ([c], rest) else ([], c :: rest)

def baseOfMark? : Char → Option Nat
  | 'x' => some 16
  | 'o' => some 8
  | 'b' => some 2
  | _ => none

def cutBase (text : List Char) : Nat × List Char × List Char :=
  match text with
  | '0' :: letter :: rest =>
    match baseOfMark? letter with
    | some base => (base, ['0', letter], rest)
    | none => (10, [], text)
  | _ => (10, [], text)

def literalValue (sign : List Char) (base : Nat) (digits : List Char) : Int :=
  if sign = ['-'] then -(Text.ofDigits base digits : Int) else Text.ofDigits base digits

def literal (sign : List Char) (base : Nat) (digits : List Char) : Except LexicalFault Piece :=
  if digits = [] then .error .noDigits
  else if digits.all (Text.isDigitOf base) then
    if base = 10 ∧ Text.digitLimit < digits.length then
      .error (.numeral (.reading digits.length))
    else
      let value := literalValue sign base digits
      if lowestLiteral ≤ value ∧ value ≤ highestLiteral then
        .ok (.token (.integer (value % 2 ^ 32).toNat))
      else .error (.ofValue value)
  else .error (.invalidDigits base (String.ofList digits))

/-- A literal takes all letters and digits that follow it. -/
def cutLiteral (text : List Char) : Cut :=
  let (sign, unsigned) := cutSign text
  let (base, mark, body) := cutBase unsigned
  let digits := body.takeWhile Char.isAlphanum
  ⟨literal sign base digits, sign ++ mark ++ digits, body.dropWhile Char.isAlphanum⟩

def cutName (c : Char) (cs : List Char) : Cut :=
  let text := c :: cs.takeWhile continuesName
  ⟨.ok (.token (.name (String.ofList text))), text, cs.dropWhile continuesName⟩

def cutSlash : List Char → Cut
  | '*' :: body => cutComment body
  | cs => ⟨.error .straySlash, [], '/' :: cs⟩

def cut (c : Char) (cs : List Char) : Cut :=
  if isSpace c then ⟨.ok .blank, [c], cs⟩
  else if c = '\n' then ⟨.ok (.token .lineEnd), [c], cs⟩
  else if c = '@' then
    ⟨.ok .comment, c :: cs.takeWhile (· ≠ '\n'), cs.dropWhile (· ≠ '\n')⟩
  else if c = '/' then cutSlash cs
  else if isSign c || c.isDigit then cutLiteral (c :: cs)
  else if startsName c then cutName c cs
  else
    match Mark.ofChar? c with
    | some mark => ⟨.ok (.token (.mark mark)), [c], cs⟩
    | none => ⟨.error (.strayCharacter c), [], c :: cs⟩

theorem closeComment_append {body inner after : List Char}
    (h : closeComment body = some (inner, after)) : inner ++ after = body := by
  induction body generalizing inner with
  | nil => simp [closeComment] at h
  | cons c rest ih =>
    rw [closeComment] at h
    split at h
    · rename_i hc
      obtain ⟨rfl, hr⟩ := hc
      cases rest with
      | nil => simp at hr
      | cons d rest =>
        obtain rfl : d = '/' := by simpa using hr
        obtain ⟨rfl, rfl⟩ := Prod.mk.inj (Option.some.inj h)
        rfl
    · obtain ⟨⟨i, a⟩, hi, he⟩ := Option.map_eq_some_iff.1 h
      obtain ⟨rfl, rfl⟩ := Prod.mk.inj he
      simp [ih hi]

private theorem dropLast_append_drop (l : List Char) :
    l.dropLast ++ l.drop (l.length - 1) = l := by
  rw [List.dropLast_eq_take, List.take_append_drop]

private theorem cutComment_append (body : List Char) :
    (cutComment body).text ++ (cutComment body).rest = '/' :: '*' :: body := by
  unfold cutComment
  split
  · simp [closeComment_append ‹_›]
  · simp [dropLast_append_drop]

theorem cutSign_append (text : List Char) : (cutSign text).1 ++ (cutSign text).2 = text := by
  cases text with
  | nil => rfl
  | cons c rest => rw [cutSign]; split <;> rfl

theorem cutBase_append (text : List Char) :
    (cutBase text).2.1 ++ (cutBase text).2.2 = text := by
  unfold cutBase
  split
  · split <;> rfl
  · rfl

private theorem cutLiteral_append (text : List Char) :
    (cutLiteral text).text ++ (cutLiteral text).rest = text := by
  simp only [cutLiteral, List.append_assoc, List.takeWhile_append_dropWhile, cutBase_append,
    cutSign_append]

private theorem cutSlash_append (cs : List Char) :
    (cutSlash cs).text ++ (cutSlash cs).rest = '/' :: cs := by
  unfold cutSlash
  split
  · exact cutComment_append _
  · rfl

/-- Nothing is lost: the characters passed over and those left are the text. -/
theorem cut_append (c : Char) (cs : List Char) : (cut c cs).text ++ (cut c cs).rest = c :: cs := by
  unfold cut
  split
  · rfl
  split
  · rfl
  split
  · simp
  split
  · subst c; exact cutSlash_append cs
  split
  · exact cutLiteral_append _
  split
  · simp [cutName]
  split <;> rfl

private theorem cutSlash_text_ne_nil {cs : List Char} {piece : Piece}
    (h : (cutSlash cs).found = .ok piece) : (cutSlash cs).text ≠ [] := by
  generalize hk : cutSlash cs = k at h ⊢
  unfold cutSlash at hk
  split at hk
  · unfold cutComment at hk
    split at hk <;> subst hk <;> simp
  · subst hk; cases h

private theorem cutLiteral_text_ne_nil {text : List Char} {piece : Piece}
    (h : (cutLiteral text).found = .ok piece) : (cutLiteral text).text ≠ [] := by
  intro hn
  simp only [cutLiteral, List.append_eq_nil_iff] at h hn
  rw [hn.2] at h
  cases h

/-- A construct that is found has at least one character. -/
theorem text_ne_nil {c : Char} {cs : List Char} {piece : Piece}
    (h : (cut c cs).found = .ok piece) : (cut c cs).text ≠ [] := by
  generalize hk : cut c cs = k at h ⊢
  unfold cut at hk
  split at hk
  · subst hk; simp
  split at hk
  · subst hk; simp
  split at hk
  · subst hk; simp
  split at hk
  · subst hk; exact cutSlash_text_ne_nil h
  split at hk
  · subst hk; exact cutLiteral_text_ne_nil h
  split at hk
  · subst hk; simp [cutName]
  split at hk
  · subst hk; simp
  · subst hk; cases h

/-- What is left behind a construct is shorter. -/
theorem length_rest_lt {c : Char} {cs : List Char} {piece : Piece}
    (h : (cut c cs).found = .ok piece) : (cut c cs).rest.length < (c :: cs).length := by
  have := congrArg List.length (cut_append c cs)
  have := List.length_pos_iff.2 (text_ne_nil h)
  simp only [List.length_append] at *
  omega

end MiniRisc.Lexeme
