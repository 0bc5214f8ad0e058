import MiniRisc.Text.Line
import MiniRisc.Text.Digits
/-! Integers as arguments: an optional sign, then decimal digits without leading zeros, or a base
mark and digits of that base. Digits may be grouped by single underscores, and decimal digits of
every script count as digits. -/
namespace MiniRisc.Text

/-- The zeros of the scripts that have decimal digits; nine follows zero by nine everywhere. -/
def scriptZeros : List Nat := [
  0x30, 0x660, 0x6F0, 0x7C0, 0x966, 0x9E6, 0xA66, 0xAE6, 0xB66, 0xBE6, 0xC66, 0xCE6, 0xD66,
  0xDE6, 0xE50, 0xED0, 0xF20, 0x1040, 0x1090, 0x17E0, 0x1810, 0x1946, 0x19D0, 0x1A80, 0x1A90,
  0x1B50, 0x1BB0, 0x1C40, 0x1C50, 0xA620, 0xA8D0, 0xA900, 0xA9D0, 0xA9F0, 0xAA50, 0xABF0,
  0xFF10, 0x104A0, 0x10D30, 0x11066, 0x110F0, 0x11136, 0x111D0, 0x112F0, 0x11450, 0x114D0,
  0x11650, 0x116C0, 0x11730, 0x118E0, 0x11950, 0x11C50, 0x11D50, 0x11DA0, 0x16A60, 0x16AC0,
  0x16B50, 0x1D7CE, 0x1D7D8, 0x1D7E2, 0x1D7EC, 0x1D7F6, 0x1E140, 0x1E2F0, 0x1E950, 0x1FBF0]

def toAsciiDigit (c : Char) : Char :=
  match scriptZeros.find? fun start => start ≤ c.toNat && c.toNat < start + 10 with
  | some start => Char.ofNat ('0'.toNat + (c.toNat - start))
  | none => c

/-- The digits without the underscores; an underscore stands between two digits. -/
def ungroup (base : Nat) : List Char → Option (List Char)
  | [] => none
  | [c] => if isDigitOf base c then some [c] else none
  | c :: '_' :: rest =>
    if isDigitOf base c then (ungroup base rest).map (c :: ·) else none
  | c :: rest => if isDigitOf base c then (ungroup base rest).map (c :: ·) else none

/-- A number in a marked base; one underscore may follow the mark. -/
def markedNumber (base : Nat) (digits : List Char) : Option Nat :=
  let digits := match digits with
    | '_' :: rest => rest
    | _ => digits
  (ungroup base digits).map (ofDigits base)

/-- A decimal number; only zero may begin with a zero, and there is a limit on the digits. -/
def plainNumber (digits : List Char) : Option Nat :=
  (ungroup 10 digits).bind fun plain =>
    if digitLimit < plain.length then none
    else if plain.head? = some '0' ∧ ofDigits 10 plain ≠ 0 then none
    else some (ofDigits 10 plain)

def baseOfMark? (letter : Char) : Option Nat :=
  match letter.toLower with
  | 'x' => some 16
  | 'o' => some 8
  | 'b' => some 2
  | _ => none

def unsignedNumber (text : List Char) : Option Nat :=
  match text with
  | '0' :: letter :: rest =>
    match baseOfMark? letter with
    | some base => markedNumber base rest
    | none => plainNumber text
  | _ => plainNumber text

def integer? (text : String) : Option Int :=
  match (trimChars text.toList).map toAsciiDigit with
  | '-' :: rest => (unsignedNumber rest).map fun n => -(n : Int)
  | '+' :: rest => (unsignedNumber rest).map Int.ofNat
  | chars => (unsignedNumber chars).map Int.ofNat

end MiniRisc.Text
