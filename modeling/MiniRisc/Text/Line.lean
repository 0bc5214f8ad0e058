/-! Lines of a text, and the white space around one. A line ends at a line feed, a carriage return,
or the pair of both; no other character ends one. White space is that of Unicode with the four
information separators. -/
namespace MiniRisc.Text

/-- White space that is trimmed at both ends of a text. -/
def isBlank (c : Char) : Bool :=
  let n := c.toNat
  (0x09 ≤ n && n ≤ 0x0D) || (0x1C ≤ n && n ≤ 0x20) || n == 0x85 || n == 0xA0 || n == 0x1680 ||
    (0x2000 ≤ n && n ≤ 0x200A) || n == 0x2028 || n == 0x2029 || n == 0x202F || n == 0x205F ||
    n == 0x3000

def trimEnd : List Char → List Char
  | [] => []
  | c :: rest =>
    match trimEnd rest with
    | [] => if isBlank c then [] else [c]
    | kept => c :: kept

def trimChars (text : List Char) : List Char :=
  trimEnd (text.dropWhile isBlank)

def trim (text : String) : String :=
  String.ofList (trimChars text.toList)

def foldNewlines : List Char → List Char
  | [] => []
  | '\r' :: '\n' :: rest => '\n' :: foldNewlines rest
  | c :: rest => (if c = '\r' then '\n' else c) :: foldNewlines rest

/-- Splits at line feeds; there is one line more than there are line feeds. -/
def splitLines : List Char → List (List Char)
  | [] => [[]]
  | c :: rest =>
    if c = '\n' then [] :: splitLines rest else (splitLines rest).modifyHead (c :: ·)

def lines (source : String) : List String :=
  (splitLines (foldNewlines source.toList)).map String.ofList

/-- Line `n`, counted from 1; outside the text it is empty. -/
def lineAt (lines : List String) (n : Int) : String :=
  if 1 ≤ n then lines.getD (n - 1).toNat "" else ""

theorem length_splitLines (text : List Char) :
    (splitLines text).length = text.count '\n' + 1 := by
  induction text with
  | nil => rfl
  | cons c rest ih => by_cases h : c = '\n' <;> simp [splitLines, h, ih]

end MiniRisc.Text
