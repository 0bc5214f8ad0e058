import MiniRisc.Opcode
import MiniRisc.Text.Digits
/-! Arithmetic of 32-bit words. Operands are integers of any size; every result is the signed
word congruent to the exact one modulo 2^32. -/
namespace MiniRisc.Word

def modulus : Nat := 2 ^ 32

def wrap (value : Int) : Int := value.bmod modulus

def unsigned (value : Int) : Int := value % modulus

def add (a b : Int) : Int := wrap (a + b)
def sub (a b : Int) : Int := wrap (a - b)
def mul (a b : Int) : Int := wrap (a * b)

/-- The exact quotient rounded toward zero; there is none by zero. -/
def div? (a b : Int) : Option Int :=
  if b = 0 then none else some (wrap (a.tdiv b))

/-- The remainder of the rounded quotient, with the sign of the dividend. -/
def mod? (a b : Int) : Option Int :=
  if b = 0 then none else some (wrap (a.tmod b))

def without (a b : Nat) : Nat := a ^^^ (a &&& b)

/-- Bitwise conjunction; a negative integer has infinitely many leading ones. -/
def conj : Int → Int → Int
  | .ofNat a, .ofNat b => .ofNat (a &&& b)
  | .ofNat a, .negSucc b => .ofNat (without a b)
  | .negSucc a, .ofNat b => .ofNat (without b a)
  | .negSucc a, .negSucc b => .negSucc (a ||| b)

/-- Bitwise disjunction, the complement of the conjunction of complements. -/
def disj : Int → Int → Int
  | .ofNat a, .ofNat b => .ofNat (a ||| b)
  | .ofNat a, .negSucc b => .negSucc (without b a)
  | .negSucc a, .ofNat b => .negSucc (without a b)
  | .negSucc a, .negSucc b => .negSucc (a &&& b)

def and (a b : Int) : Int := wrap (conj a b)
def or (a b : Int) : Int := wrap (disj a b)

def not (a : Int) : Int := wrap (-a - 1)

/-- Only the low five bits of a shift amount count. -/
def shiftAmount (amount : Int) : Nat := (amount % 32).toNat

def shiftLeft (a amount : Int) : Int := wrap (a * 2 ^ shiftAmount amount)

def shiftRightLogical (a amount : Int) : Int := wrap (unsigned a / 2 ^ shiftAmount amount)

def shiftRightArithmetic (a amount : Int) : Int := wrap a / 2 ^ shiftAmount amount

def compare (a b : Int) : Bool × Bool := (a == b, a > b)

/-- The word that the low sixteen bits of an immediate stand for under a modifier. -/
def widen (modifier : Modifier) (imm : Int) : Int :=
  match modifier with
  | .signed => imm.bmod (2 ^ 16)
  | .unsigned => imm % 2 ^ 16
  | .high => wrap (imm % 2 ^ 16 * 2 ^ 16)

def bytes (value : Int) : List UInt8 :=
  let n := (unsigned value).toNat
  [.ofNat n, .ofNat (n / 2 ^ 8), .ofNat (n / 2 ^ 16), .ofNat (n / 2 ^ 24)]

def ofBytes (bytes : List UInt8) : Nat :=
  bytes.foldr (fun byte value => byte.toNat + 256 * value) 0

theorem wrap_lower (value : Int) : -2 ^ 31 ≤ wrap value := by
  unfold wrap modulus
  have := @Int.le_bmod value (2 ^ 32) (by decide)
  omega

theorem wrap_upper (value : Int) : wrap value < 2 ^ 31 := by
  unfold wrap modulus
  have := @Int.bmod_lt value (2 ^ 32) (by decide)
  omega

/-- A word is the bit vector of its 32 bits, read with its sign. -/
theorem wrap_eq_toInt_ofInt (value : Int) : wrap value = (BitVec.ofInt 32 value).toInt := by
  rw [BitVec.toInt_ofInt]; rfl

/-- An integer that fits is its own word. -/
theorem wrap_of_fits {value : Int} (lower : -2 ^ 31 ≤ value) (upper : value < 2 ^ 31) :
    wrap value = value := by
  unfold wrap modulus
  exact Int.bmod_eq_of_le_mul_two (by omega) (by omega)

theorem length_bytes (value : Int) : (bytes value).length = 4 := rfl

/-- The bytes of a word determine it. -/
theorem ofBytes_bytes (value : Int) : (ofBytes (bytes value) : Int) = unsigned value := by
  have h : 0 ≤ unsigned value ∧ unsigned value < 2 ^ 32 := by
    unfold unsigned modulus
    omega
  simp only [bytes, ofBytes, List.foldr_cons, List.foldr_nil, UInt8.toNat_ofNat']
  omega

end MiniRisc.Word
