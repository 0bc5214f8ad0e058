import MiniRisc.Word
/-! Arithmetic of words as arithmetic of the bit vectors that hold them. -/
namespace MiniRisc.Word

def Fits (value : Int) : Prop := -2 ^ 31 ≤ value ∧ value < 2 ^ 31

instance (value : Int) : Decidable (Fits value) := inferInstanceAs (Decidable (_ ∧ _))

abbrev bits (value : Int) : BitVec 32 := .ofInt 32 value

theorem fits_wrap (value : Int) : Fits (wrap value) := ⟨wrap_lower value, wrap_upper value⟩

theorem toInt_bits {value : Int} (h : Fits value) : (bits value).toInt = value := by
  rw [← wrap_eq_toInt_ofInt]
  exact wrap_of_fits h.1 h.2

private theorem bits_toInt (x : BitVec 32) : bits x.toInt = x := BitVec.ofInt_toInt

theorem bits_natCast (n : Nat) : bits n = BitVec.ofNat 32 n := BitVec.ofInt_natCast 32 n

theorem bits_wrap (value : Int) : bits (wrap value) = bits value := by
  rw [wrap_eq_toInt_ofInt, bits_toInt]

theorem toNat_bits (value : Int) : ((bits value).toNat : Int) = unsigned value := by
  have : 0 ≤ value % 2 ^ 32 := Int.emod_nonneg _ (by decide)
  rw [BitVec.toNat_ofInt]
  exact Int.toNat_of_nonneg this

theorem bits_sub (a b : Int) : bits (a - b) = bits a - bits b := by
  rw [Int.sub_eq_add_neg, BitVec.sub_eq_add_neg, bits, BitVec.ofInt_add, BitVec.ofInt_neg]

theorem bits_add (a b : Int) : bits (a + b) = bits a + bits b := BitVec.ofInt_add a b

theorem bits_mul (a b : Int) : bits (a * b) = bits a * bits b := BitVec.ofInt_mul a b

private theorem ofNat_without (a b : Nat) :
    BitVec.ofNat 32 (without a b) = BitVec.ofNat 32 a &&& ~~~BitVec.ofNat 32 b := by
  rw [without, BitVec.ofNat_xor, BitVec.ofNat_and]
  ext i hi
  simp only [BitVec.getElem_xor, BitVec.getElem_and, BitVec.getElem_not]
  cases (BitVec.ofNat 32 a)[i] <;> simp

private theorem bits_ofNat (a : Nat) : bits (.ofNat a) = BitVec.ofNat 32 a := bits_natCast a

private theorem bits_negSucc (a : Nat) : bits (.negSucc a) = ~~~BitVec.ofNat 32 a :=
  BitVec.ofInt_negSucc_eq_not_ofNat

theorem bits_conj (a b : Int) : bits (conj a b) = bits a &&& bits b := by
  cases a <;> cases b <;>
    simp only [conj, bits_ofNat, bits_negSucc, ofNat_without, BitVec.ofNat_and, BitVec.ofNat_or]
  · rw [BitVec.and_comm]
  · rw [BitVec.not_or]

theorem bits_disj (a b : Int) : bits (disj a b) = bits a ||| bits b := by
  cases a <;> cases b <;>
    simp only [disj, bits_ofNat, bits_negSucc, ofNat_without, BitVec.ofNat_and, BitVec.ofNat_or]
  · rw [BitVec.not_and, BitVec.not_not, BitVec.or_comm]
  · rw [BitVec.not_and, BitVec.not_not]
  · rw [BitVec.not_and]

theorem bits_not (a : Int) : bits (not a) = ~~~bits a := by
  rw [not, bits_wrap, bits_sub, bits, BitVec.ofInt_neg, BitVec.not_eq_neg_add]
  rfl

/-- A shift counts the low five bits of its amount. -/
theorem shiftAmount_eq (amount : Int) : shiftAmount amount = ((bits amount).setWidth 5).toNat := by
  have := toNat_bits amount
  rw [BitVec.toNat_setWidth, shiftAmount]
  unfold unsigned modulus at this
  omega

private theorem two_pow_natCast (n : Nat) : (2 ^ n : Int) = (2 ^ n : Nat) := by norm_cast

private theorem bits_two_pow (n : Nat) : bits (2 ^ n) = BitVec.twoPow 32 n := by
  apply BitVec.eq_of_toNat_eq
  rw [two_pow_natCast, bits_natCast, BitVec.toNat_ofNat, BitVec.toNat_twoPow]

theorem bits_shiftLeft (a amount : Int) :
    bits (shiftLeft a amount) = bits a <<< ((bits amount).setWidth 5).toNat := by
  rw [shiftLeft, bits_wrap, bits_mul, shiftAmount_eq, bits_two_pow,
    BitVec.shiftLeft_eq_mul_twoPow]

theorem bits_shiftRightLogical (a amount : Int) :
    bits (shiftRightLogical a amount) = bits a >>> ((bits amount).setWidth 5).toNat := by
  rw [shiftRightLogical, bits_wrap, ← toNat_bits, shiftAmount_eq]
  generalize ((bits amount).setWidth 5).toNat = n
  apply BitVec.eq_of_toNat_eq
  have hlt : (bits a).toNat / 2 ^ n < 2 ^ 32 :=
    Nat.lt_of_le_of_lt (Nat.div_le_self _ _) (bits a).isLt
  rw [BitVec.toNat_ushiftRight, Nat.shiftRight_eq_div_pow, two_pow_natCast,
    ← Int.natCast_ediv, bits_natCast, BitVec.toNat_ofNat, Nat.mod_eq_of_lt hlt]

theorem bits_shiftRightArithmetic (a amount : Int) :
    bits (shiftRightArithmetic a amount) =
      (bits a).sshiftRight ((bits amount).setWidth 5).toNat := by
  rw [← bits_toInt ((bits a).sshiftRight _), BitVec.toInt_sshiftRight, ← wrap_eq_toInt_ofInt,
    Int.shiftRight_eq_div_pow, shiftRightArithmetic, shiftAmount_eq]
  rfl

theorem bits_inj {a b : Int} (ha : Fits a) (hb : Fits b) : bits a = bits b ↔ a = b := by
  rw [← BitVec.toInt_inj, toInt_bits ha, toInt_bits hb]

private theorem bits_eq_zero_iff {b : Int} (h : Fits b) : bits b = 0#32 ↔ b = 0 := by
  rw [show 0#32 = bits 0 from rfl]
  exact bits_inj h ⟨by decide, by decide⟩

/-- Division rounds toward zero. The one quotient that is no word is wrapped. -/
theorem bits_div? {a b : Int} (ha : Fits a) (hb : Fits b) :
    (div? a b).map bits = if bits b = 0 then none else some ((bits a).sdiv (bits b)) := by
  have hzero := bits_eq_zero_iff hb
  have hdiv : wrap (a.tdiv b) = ((bits a).sdiv (bits b)).toInt := by
    rw [BitVec.toInt_sdiv, toInt_bits ha, toInt_bits hb]
    rfl
  by_cases h : b = 0
  · simp [div?, h]
  · simp [div?, hzero, h, hdiv]

theorem bits_mod? {a b : Int} (ha : Fits a) (hb : Fits b) :
    (mod? a b).map bits = if bits b = 0 then none else some ((bits a).srem (bits b)) := by
  have hzero := bits_eq_zero_iff hb
  have hmod : bits (wrap (a.tmod b)) = (bits a).srem (bits b) := by
    rw [bits_wrap, ← bits_toInt ((bits a).srem (bits b)), BitVec.toInt_srem, toInt_bits ha,
      toInt_bits hb]
  by_cases h : b = 0
  · simp [mod?, h]
  · simp [mod?, hzero, h, hmod]

theorem compare_eq {a b : Int} (ha : Fits a) (hb : Fits b) :
    compare a b = (bits a == bits b, (bits b).slt (bits a)) := by
  have hequal : (a == b) = (bits a == bits b) := by
    rw [Bool.eq_iff_iff, beq_iff_eq, beq_iff_eq, bits_inj ha hb]
  rw [compare, BitVec.slt_eq_decide, toInt_bits ha, toInt_bits hb, hequal]

/-- The bits of a widened immediate, from the sixteen bits of its field. -/
theorem bits_widen (modifier : Modifier) (imm : Int) :
    bits (widen modifier imm) = match modifier with
      | .signed => (BitVec.ofInt 16 imm).signExtend 32
      | .unsigned => (BitVec.ofInt 16 imm).setWidth 32
      | .high => BitVec.ofInt 16 imm ++ 0#16 := by
  cases modifier with
  | signed => rw [widen, BitVec.signExtend, BitVec.toInt_ofInt]
  | unsigned =>
    apply BitVec.eq_of_toNat_eq
    rw [BitVec.toNat_setWidth, BitVec.toNat_ofInt, BitVec.toNat_ofInt, widen]
    omega
  | high =>
    apply BitVec.eq_of_toNat_eq
    rw [widen, bits_wrap, BitVec.toNat_append, BitVec.toNat_ofInt, BitVec.toNat_ofInt,
      BitVec.toNat_ofNat, Nat.zero_mod, Nat.or_zero, Nat.shiftLeft_eq]
    omega

theorem fits_widen (modifier : Modifier) (imm : Int) : Fits (widen modifier imm) := by
  cases modifier with
  | signed =>
    have lower := @Int.le_bmod imm (2 ^ 16) (by decide)
    have upper := @Int.bmod_lt imm (2 ^ 16) (by decide)
    rw [widen]
    constructor <;> omega
  | unsigned =>
    rw [widen]
    constructor <;> omega
  | high => exact fits_wrap _

private theorem toBitVec_byte (value : Int) (n : Nat) :
    (UInt8.ofNat ((unsigned value).toNat / 2 ^ n)).toBitVec = (bits value).extractLsb' n 8 := by
  apply BitVec.eq_of_toNat_eq
  rw [BitVec.extractLsb'_toNat, Nat.shiftRight_eq_div_pow, ← toNat_bits, Int.toNat_natCast]
  rfl

/-- The bytes of a word are its bits, eight by eight. -/
theorem toBitVec_bytes (value : Int) {offset : Nat} (h : offset < (bytes value).length) :
    (bytes value)[offset].toBitVec = (bits value).extractLsb' (8 * offset) 8 := by
  rw [length_bytes] at h
  match offset with
  | 0 => rw [← toBitVec_byte, Nat.mul_zero, Nat.pow_zero, Nat.div_one]; rfl
  | 1 => rw [← toBitVec_byte]; rfl
  | 2 => rw [← toBitVec_byte]; rfl
  | 3 => rw [← toBitVec_byte]; rfl

private theorem toNat_append_byte {n : Nat} (x : BitVec n) (a : UInt8) :
    (x ++ a.toBitVec).toNat = a.toNat + 256 * x.toNat := by
  have hlt : a.toNat < 2 ^ 8 := a.toBitVec.isLt
  rw [BitVec.toNat_append, UInt8.toNat_toBitVec, ← Nat.shiftLeft_add_eq_or_of_lt hlt,
    Nat.shiftLeft_eq]
  omega

/-- Four bytes are a word, the first the lowest. -/
theorem bits_ofBytes (a b c d : UInt8) : bits (ofBytes [a, b, c, d]) =
    d.toBitVec ++ c.toBitVec ++ b.toBitVec ++ a.toBitVec := by
  apply BitVec.eq_of_toNat_eq
  have hlt := (d.toBitVec ++ c.toBitVec ++ b.toBitVec ++ a.toBitVec).isLt
  simp only [toNat_append_byte, UInt8.toNat_toBitVec] at hlt ⊢
  simp only [bits_natCast, ofBytes, List.foldr_cons, List.foldr_nil, BitVec.toNat_ofNat]
  omega

end MiniRisc.Word
