/-! Numbers as digit characters in a base up to 36, most significant digit first. -/

-- Powers of numbers are core's own in every module, also beside a library that has another
-- instance for them.
attribute [instance (high), default_instance high + 1] instPowNat

namespace MiniRisc.Text

/-- Value of an ASCII letter or digit; letters of both cases count on from ten. -/
def digitValue (c : Char) : Nat :=
  if c.isDigit then c.toNat - '0'.toNat
  else if c.isUpper then c.toNat - 'A'.toNat + 10
  else c.toNat - 'a'.toNat + 10

def isDigitOf (base : Nat) (c : Char) : Bool :=
  c.isAlphanum && digitValue c < base

def ofDigits (base : Nat) (digits : List Char) : Nat :=
  digits.foldl (fun value c => value * base + digitValue c) 0

def digitChar (value : Nat) : Char :=
  if value < 10 then Char.ofNat ('0'.toNat + value) else Char.ofNat ('A'.toNat + (value - 10))

/-- The digits of a number without leading zeros; zero has one digit. -/
def toDigits (base value : Nat) : List Char :=
  if _h : 2 ≤ base ∧ base ≤ value then
    toDigits base (value / base) ++ [digitChar (value % base)]
  else [digitChar value]
termination_by value
decreasing_by exact Nat.div_lt_self (by omega) (by omega)

def decimalChars (value : Int) : List Char :=
  if value < 0 then '-' :: toDigits 10 value.natAbs else toDigits 10 value.natAbs

def decimal (value : Int) : String :=
  String.ofList (decimalChars value)

def fitsDigits : Nat → Nat → Bool
  | 0, value => value = 0
  | limit + 1, value => if value = 0 then true else fitsDigits limit (value / 10)

/-- The most decimal digits that a number is read or written in. No other base has a limit. -/
def digitLimit : Nat := 4300

def isWritable (value : Int) : Bool := fitsDigits digitLimit value.natAbs

inductive NumeralFault
  | reading (digits : Nat)
  | writing
  deriving DecidableEq, Repr

def NumeralFault.message (fault : NumeralFault) : String :=
  "Exceeds the limit (" ++ decimal digitLimit ++ " digits) for integer string conversion" ++
    count fault ++ "; use sys.set_int_max_str_digits() to increase the limit"
where
  count : NumeralFault → String
    | reading digits => ": value has " ++ decimal digits ++ " digits"
    | writing => ""

/-- Words with a number in them, or why the number cannot be written. -/
def withNumber (value : Int) (words : String → String) : String :=
  if isWritable value then words (decimal value) else NumeralFault.writing.message

def hex (value : Nat) : String :=
  String.ofList (toDigits 16 value)

def padLeft (fill : Char) (width : Nat) (text : String) : String :=
  String.ofList (List.replicate (width - text.length) fill) ++ text

def padRight (width : Nat) (text : String) : String :=
  text ++ String.ofList (List.replicate (width - text.length) ' ')

theorem toDigits_of_lt {base value : Nat} (h : value < base) :
    toDigits base value = [digitChar value] := by
  rw [toDigits, dif_neg (by omega)]

theorem toDigits_of_le {base value : Nat} (hb : 2 ≤ base) (h : base ≤ value) :
    toDigits base value = toDigits base (value / base) ++ [digitChar (value % base)] := by
  rw [toDigits, dif_pos ⟨hb, h⟩]

theorem toDigits_ne_nil (base value : Nat) : toDigits base value ≠ [] := by
  rw [toDigits]
  split <;> simp

theorem ofDigits_append (base : Nat) (front : List Char) (c : Char) :
    ofDigits base (front ++ [c]) = ofDigits base front * base + digitValue c := by
  simp [ofDigits]

end MiniRisc.Text
