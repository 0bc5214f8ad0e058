import MiniRisc.Proofs.Token.Spelling
/-! Tokens laid out as a text. Between them stand blanks and comments in any order, at least one
between two words, and the text is read back as the same tokens. -/
namespace MiniRisc
open Lexeme

namespace Token

/-- A literal as it is written: a sign or none, the mark of its base, and digits, which may begin
with zeros. -/
structure Literal where
  sign : List Char
  base : Nat
  mark : List Char
  digits : List Char
  signed : sign ∈ [[], ['+'], ['-']]
  marked : BaseMark base mark
  present : digits ≠ []
  legal : ∀ d ∈ digits, Text.isDigitOf base d = true
  readable : Readable base digits
  low : lowestLiteral ≤ literalValue sign base digits
  high : literalValue sign base digits ≤ highestLiteral

namespace Literal

def text (l : Literal) : List Char := l.sign ++ (l.mark ++ l.digits)

def pattern (l : Literal) : Nat := (literalValue l.sign l.base l.digits % 2 ^ 32).toNat

end Literal

/-- What a text is laid out with: tokens, and what may stand between them. A remark takes the rest
of its line. -/
inductive Item
  | blank (c : Char) (space : isSpace c = true)
  | comment (inner : List Char) (unclosed : Unclosed inner)
  | remark (inner : List Char) (line : '\n' ∉ inner ∧ '\r' ∉ inner)
  | name (word : String) (isWord : IsWord word)
  | literal (literal : Literal)
  | mark (mark : Mark)
  | lineEnd

namespace Item

def text : Item → List Char
  | blank c _ => [c]
  | comment inner _ => '/' :: '*' :: (inner ++ ['*', '/'])
  | remark inner _ => '@' :: inner
  | name word _ => word.toList
  | literal l => l.text
  | mark m => [m.char]
  | lineEnd => ['\n']

def piece : Item → Piece
  | blank _ _ => .blank
  | comment _ _ | remark _ _ => .comment
  | name word _ => .token (.name word)
  | literal l => .token (.integer l.pattern)
  | mark m => .token (.mark m)
  | lineEnd => .token .lineEnd

def segment (i : Item) : Segment := ⟨i.piece, i.text⟩

def isWord : Item → Bool
  | name _ _ | literal _ => true
  | _ => false

def isRemark : Item → Bool
  | remark _ _ => true
  | _ => false

/-- What may stand right behind an item: no word behind a word, and nothing but the line end behind
a remark. -/
structure Precedes (i j : Item) : Prop where
  words : i.isWord = true → j.isWord = false
  remark : i.isRemark = true → j.piece = .token .lineEnd

instance (i j : Item) : Decidable (i.Precedes j) :=
  decidable_of_iff ((i.isWord = true → j.isWord = false) ∧
      (i.isRemark = true → j.piece = .token .lineEnd))
    ⟨fun h => ⟨h.1, h.2⟩, fun h => ⟨h.words, h.remark⟩⟩

end Item

structure Layout where
  items : List Item
  fits : items.IsChain Item.Precedes

namespace Layout

def chars (items : List Item) : List Char := items.flatMap Item.text

def kinds (l : Layout) : List Kind := l.items.filterMap (·.segment.kind?)

def source (l : Layout) : String := String.ofList (chars l.items)

end Layout

section Items
variable {i j : Item} {items : List Item} {behind : List Char}

/-- An item that is no word is not taken for more of a word. -/
theorem Item.stopsAt_of_not_word (h : i.isWord = false) :
    StopsAt continuesName (i.text ++ behind) := by
  intro c hc
  cases i with
  | blank d space =>
    obtain rfl := Option.some.inj hc
    simp only [isSpace, Bool.or_eq_true, decide_eq_true_eq] at space
    rcases space with ((rfl | rfl) | rfl) | rfl <;> rfl
  | mark m =>
    obtain rfl := Option.some.inj hc
    cases m <;> rfl
  | comment | remark | lineEnd =>
    obtain rfl := Option.some.inj hc
    rfl
  | name | literal => cases h

private theorem stopsAt_chars (h : ∀ j, items.head? = some j → j.isWord = false) :
    StopsAt continuesName (Layout.chars items) := by
  cases items with
  | nil => exact fun c hc => nomatch hc
  | cons j rest => exact Item.stopsAt_of_not_word (h j rfl)

/-- An item is the construct that it is laid out as, where items that may stand behind it are. -/
theorem Item.construct (h : ∀ j, items.head? = some j → i.Precedes j) :
    Construct (Layout.chars items) i.piece i.text := by
  have hstop (hi : i.isWord = true) : StopsAt continuesName (Layout.chars items) :=
    stopsAt_chars fun j hj => (h j hj).words hi
  cases i with
  | blank c space => exact .blank (by simpa [isSpace, or_assoc] using space)
  | comment inner unclosed => exact .blockComment unclosed
  | remark inner line =>
    refine .lineComment line.1 ?_
    cases items with
    | nil => exact .inl rfl
    | cons j rest =>
      have hj := (h j rfl).remark rfl
      cases j with
      | lineEnd => exact .inr rfl
      | _ => cases hj
  | name word isWord => exact (spells_name isWord).construct _ (hstop rfl)
  | literal l =>
    exact .literal l.signed l.marked l.present l.legal l.readable l.low l.high
      (stopsAt_isAlphanum (hstop rfl))
  | mark m => exact .mark m
  | lineEnd => exact .lineEnd

/-- A text laid out is made up of the constructs of its items. -/
theorem segmentation_chars (h : items.IsChain Item.Precedes) :
    Segmentation (Layout.chars items) (items.map Item.segment) := by
  induction items with
  | nil => exact .nil
  | cons i rest ih =>
    obtain ⟨hhead, hrest⟩ := List.isChain_cons.1 h
    exact .cons (s := i.segment) (Item.construct hhead) (ih hrest)

end Items

section Folding
variable {i j : Item} {items : List Item} {inner text : List Char}

private theorem head?_foldNewlines {c : Char} (hc : c ≠ '\n')
    (h : (Text.foldNewlines text).head? = some c) : text.head? = some c := by
  fun_induction Text.foldNewlines text with
  | case1 => cases h
  | case2 rest =>
    obtain rfl := Option.some.inj h
    exact absurd rfl hc
  | case3 d rest =>
    split at h
    · obtain rfl := Option.some.inj h
      exact absurd rfl hc
    · exact h

/-- A comment whose line endings are folded is closed no earlier. -/
theorem unclosed_foldNewlines (h : Unclosed inner) : Unclosed (Text.foldNewlines inner) := by
  fun_induction Text.foldNewlines inner with
  | case1 => exact h
  | case2 rest ih =>
    have hrest := (unclosed_cons.1 (unclosed_cons.1 h).1).1
    exact unclosed_cons.2 ⟨ih hrest, fun hclosed => by cases hclosed.1⟩
  | case3 c rest hpair ih =>
    obtain ⟨hrest, hopen⟩ := unclosed_cons.1 h
    refine unclosed_cons.2 ⟨ih hrest, ?_⟩
    rintro ⟨hstar, hslash⟩
    split at hstar
    · cases hstar
    · exact hopen ⟨hstar, head?_foldNewlines (by decide) hslash⟩

namespace Item

def folded : Item → Item
  | comment inner unclosed => comment (Text.foldNewlines inner) (unclosed_foldNewlines unclosed)
  | item => item

@[simp] theorem isWord_folded (i : Item) : i.folded.isWord = i.isWord := by
  cases i <;> rfl

@[simp] theorem isRemark_folded (i : Item) : i.folded.isRemark = i.isRemark := by
  cases i <;> rfl

@[simp] theorem piece_folded (i : Item) : i.folded.piece = i.piece := by
  cases i <;> rfl

@[simp] theorem kind?_folded (i : Item) : i.folded.segment.kind? = i.segment.kind? := by
  cases i <;> rfl

private theorem precedes_folded (h : i.Precedes j) : i.folded.Precedes j.folded :=
  ⟨by simpa using h.words, by simpa using h.remark⟩

/-- Only comments have carriage returns. -/
theorem return_not_mem (h : ∀ inner unclosed, i ≠ .comment inner unclosed) : '\r' ∉ i.text := by
  have hnone (j : Item) (hj : ([] : List Item).head? = some j) : i.Precedes j := nomatch hj
  have hconstruct : Construct [] i.piece i.text := construct hnone
  cases i with
  | comment inner unclosed => exact absurd rfl (h inner unclosed)
  | blank c space =>
    intro hm
    obtain rfl := List.mem_singleton.1 hm
    cases space
  | remark inner line => simpa [text] using line.2
  | name | literal | mark | lineEnd => exact return_not_mem_of_token hconstruct

/-- No item ends with half a line ending. -/
theorem getLast?_text (i : Item) : i.text.getLast? ≠ some '\r' := by
  cases i with
  | comment inner unclosed =>
    have htext : (comment inner unclosed).text = ('/' :: '*' :: inner ++ ['*']) ++ ['/'] := by
      simp [text]
    rw [htext, List.getLast?_concat]
    decide
  | _ => exact fun hlast => absurd (List.mem_of_getLast? hlast) (return_not_mem nofun)

private theorem foldNewlines_text (i : Item) : Text.foldNewlines i.text = i.folded.text := by
  cases i with
  | comment inner unclosed =>
    rw [text, Text.foldNewlines_cons (c := '/') nofun, Text.foldNewlines_cons (c := '*') nofun,
      Text.foldNewlines_append fun _ => by decide]
    rfl
  | _ => exact Text.foldNewlines_of_not_mem (return_not_mem nofun)

end Item

theorem foldNewlines_chars (items : List Item) :
    Text.foldNewlines (Layout.chars items) = Layout.chars (items.map Item.folded) := by
  induction items with
  | nil => rfl
  | cons i rest ih =>
    have happend : Text.foldNewlines (i.text ++ Layout.chars rest) = _ :=
      Text.foldNewlines_append fun hlast => absurd hlast i.getLast?_text
    rw [i.foldNewlines_text, ih] at happend
    exact happend

end Folding

/-- A text laid out is read as the tokens that it was laid out with, and its end. -/
theorem ofSource_layout (l : Layout) : ∃ tokens, ofSource l.source = .ok tokens ∧
    tokens.map (·.kind) = l.kinds ++ [.textEnd] := by
  have hfits : (l.items.map Item.folded).IsChain Item.Precedes :=
    (List.isChain_map _).2 (l.fits.imp fun _ _ h => Item.precedes_folded h)
  have hsegments := segmentation_chars hfits
  have hfold : Text.foldNewlines l.source.toList = Layout.chars (l.items.map Item.folded) := by
    rw [Layout.source, String.toList_ofList, foldNewlines_chars]
  rw [← hfold] at hsegments
  obtain ⟨tokens, htokens⟩ := ofSource_ok_iff.2 ⟨_, hsegments⟩
  obtain ⟨segments, h⟩ := ofSource_lossless htokens
  refine ⟨tokens, htokens, ?_⟩
  rw [h.kinds, ← h.unique _ hsegments, List.map_map, List.filterMap_map, Layout.kinds]
  exact congrArg (fun f => l.items.filterMap f ++ [.textEnd]) (funext Item.kind?_folded)

end Token
end MiniRisc
