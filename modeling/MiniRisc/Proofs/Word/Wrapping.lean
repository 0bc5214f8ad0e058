import Mathlib
import MiniRisc.Proofs.Word.Bits
/-! Wrapping of integers to words. Operations without a failure are those of the words that their
operands are congruent to, so it does not matter when operands and results are wrapped. -/
namespace MiniRisc.Word

/-- An operation of integers that is one of the words they are congruent to. -/
structure OfWords (f : Int → Int → Int) (F : BitVec 32 → BitVec 32 → BitVec 32) : Prop where
  fits (a b : Int) : Fits (f a b)
  bits_eq (a b : Int) : bits (f a b) = F (bits a) (bits b)

/-- An operation that does not see which of congruent integers its operands are. -/
structure Modular (f : Int → Int → Int) : Prop where
  fits (a b : Int) : Fits (f a b)
  congr {a a' b b' : Int} : a ≡ a' [ZMOD 2 ^ 32] → b ≡ b' [ZMOD 2 ^ 32] → f a b = f a' b'
  wrap_eq (a b : Int) : wrap (f a b) = f (wrap a) (wrap b)

def binary : List (Int → Int → Int) :=
  [add, sub, mul, and, or, shiftLeft, shiftRightLogical, shiftRightArithmetic]

section Congruence
variable {a b w : Int}

private theorem bits_eq_iff : bits a = bits b ↔ a ≡ b [ZMOD 2 ^ 32] := by
  rw [← BitVec.toNat_inj, ← Nat.cast_inj (R := Int), toNat_bits, toNat_bits]
  rfl

theorem wrap_modEq (a : Int) : wrap a ≡ a [ZMOD 2 ^ 32] := bits_eq_iff.1 (bits_wrap a)

private theorem wrap_wrap (a : Int) : wrap (wrap a) = wrap a :=
  wrap_of_fits (wrap_lower a) (wrap_upper a)

/-- Of the integers congruent to one there is a single word. -/
theorem eq_wrap_iff : w = wrap a ↔ Fits w ∧ w ≡ a [ZMOD 2 ^ 32] := by
  constructor
  · rintro rfl
    exact ⟨fits_wrap a, wrap_modEq a⟩
  · rintro ⟨hw, ha⟩
    calc w
      _ = (bits w).toInt := (toInt_bits hw).symm
      _ = (bits a).toInt := by rw [bits_eq_iff.2 ha]
      _ = wrap a := (wrap_eq_toInt_ofInt a).symm

end Congruence

namespace OfWords
variable {f : Int → Int → Int} {F : BitVec 32 → BitVec 32 → BitVec 32}

private theorem eq_toInt (h : OfWords f F) (a b : Int) : f a b = (F (bits a) (bits b)).toInt := by
  rw [← h.bits_eq, toInt_bits (h.fits a b)]

private theorem modular (h : OfWords f F) : Modular f where
  fits := h.fits
  congr ha hb := by rw [h.eq_toInt, h.eq_toInt, bits_eq_iff.2 ha, bits_eq_iff.2 hb]
  wrap_eq a b := by
    rw [wrap_of_fits (h.fits a b).1 (h.fits a b).2, h.eq_toInt, h.eq_toInt, bits_wrap, bits_wrap]

private theorem comm (h : OfWords f F) (hF : ∀ x y, F x y = F y x) (a b : Int) : f a b = f b a := by
  rw [h.eq_toInt, h.eq_toInt, hF]

private theorem assoc (h : OfWords f F) (hF : ∀ x y z, F (F x y) z = F x (F y z)) (a b c : Int) :
    f (f a b) c = f a (f b c) := by
  rw [h.eq_toInt (f a b) c, h.eq_toInt a (f b c), h.bits_eq, h.bits_eq, hF]

end OfWords

/-- An exact operation whose bits are those of an operation of words is one of words when its result
is wrapped. -/
theorem ofWords_wrap {f : Int → Int → Int} {F : BitVec 32 → BitVec 32 → BitVec 32}
    (h : ∀ a b, bits (f a b) = F (bits a) (bits b)) : OfWords (fun a b => wrap (f a b)) F where
  fits a b := fits_wrap (f a b)
  bits_eq a b := by rw [bits_wrap, h]

private theorem add_ofWords : OfWords add (· + ·) := ofWords_wrap bits_add

private theorem sub_ofWords : OfWords sub (· - ·) := ofWords_wrap bits_sub

private theorem mul_ofWords : OfWords mul (· * ·) := ofWords_wrap bits_mul

private theorem and_ofWords : OfWords and (· &&& ·) := ofWords_wrap bits_conj

private theorem or_ofWords : OfWords or (· ||| ·) := ofWords_wrap bits_disj

private theorem not_eq_toInt (a : Int) : not a = (~~~bits a).toInt := by
  have hfits : Fits (not a) := fits_wrap _
  rw [← bits_not, toInt_bits hfits]

/-- A word shifted right is a word. -/
theorem fits_ediv {a : Int} (h : Fits a) (n : Nat) : Fits (a / 2 ^ n) := by
  have hpos : (0 : Int) < 2 ^ n := by positivity
  obtain ⟨lower, upper⟩ := h
  constructor
  · refine Int.le_ediv_of_mul_le hpos (le_trans ?_ lower)
    linarith
  · refine Int.ediv_lt_of_lt_mul hpos (lt_of_lt_of_le upper ?_)
    linarith

section Shifts

private theorem shiftLeft_ofWords :
    OfWords shiftLeft fun x y => x <<< (y.setWidth 5).toNat :=
  ⟨fun _ _ => fits_wrap _, bits_shiftLeft⟩

private theorem shiftRightLogical_ofWords :
    OfWords shiftRightLogical fun x y => x >>> (y.setWidth 5).toNat :=
  ⟨fun _ _ => fits_wrap _, bits_shiftRightLogical⟩

private theorem shiftRightArithmetic_ofWords :
    OfWords shiftRightArithmetic fun x y => x.sshiftRight (y.setWidth 5).toNat :=
  ⟨fun a b => fits_ediv (fits_wrap a) (shiftAmount b), bits_shiftRightArithmetic⟩

private theorem shiftAmount_congr {b b' : Int} (h : b ≡ b' [ZMOD 32]) :
    shiftAmount b = shiftAmount b' := by
  rw [shiftAmount, shiftAmount, h]

private theorem shiftAmount_natCast {n : Nat} (h : n < 32) : shiftAmount n = n := by
  rw [shiftAmount]
  omega

/-- The greatest integer that is at most a quotient by a power of two. -/
theorem floor_div_two_pow (a : Int) (n : Nat) : ⌊(a : ℚ) / 2 ^ n⌋ = a / 2 ^ n := by
  have hfloor := Rat.floor_intCast_div_natCast a (2 ^ n)
  push_cast at hfloor
  exact hfloor

end Shifts

private theorem exists_ofWords : ∀ f ∈ binary, ∃ F, OfWords f F := by
  simp only [binary, List.forall_mem_cons, List.not_mem_nil, false_implies, implies_true, and_true]
  exact ⟨⟨_, add_ofWords⟩, ⟨_, sub_ofWords⟩, ⟨_, mul_ofWords⟩, ⟨_, and_ofWords⟩, ⟨_, or_ofWords⟩,
    ⟨_, shiftLeft_ofWords⟩, ⟨_, shiftRightLogical_ofWords⟩, ⟨_, shiftRightArithmetic_ofWords⟩⟩

private theorem modular_of_mem {f : Int → Int → Int} (h : f ∈ binary) : Modular f := by
  obtain ⟨F, hF⟩ := exists_ofWords f h
  exact hF.modular

private theorem comm_assoc_of_mem : ∀ f ∈ [add, mul, and, or], ∀ a b c,
    f a b = f b a ∧ f (f a b) c = f a (f b c) := by
  simp only [List.forall_mem_cons, List.not_mem_nil, false_implies, implies_true, and_true]
  refine ⟨fun a b c => ⟨?_, ?_⟩, fun a b c => ⟨?_, ?_⟩, fun a b c => ⟨?_, ?_⟩,
    fun a b c => ⟨?_, ?_⟩⟩
  · exact add_ofWords.comm BitVec.add_comm a b
  · exact add_ofWords.assoc BitVec.add_assoc a b c
  · exact mul_ofWords.comm BitVec.mul_comm a b
  · exact mul_ofWords.assoc BitVec.mul_assoc a b c
  · exact and_ofWords.comm BitVec.and_comm a b
  · exact and_ofWords.assoc BitVec.and_assoc a b c
  · exact or_ofWords.comm BitVec.or_comm a b
  · exact or_ofWords.assoc BitVec.or_assoc a b c

/-- It is not seen when integers are wrapped. Wrapping gives the one word that an integer is
congruent to. No operation sees which of congruent integers its operands are, all give words, and
wrapping commutes with each; addition, multiplication and the bitwise operations of words are
commutative and associative. A shift sees its amount modulo 32, and by less than that it multiplies
by a power of two, or divides by one and rounds down: the unsigned word or the word itself. -/
theorem wrapping_unseen :
    (∀ a w, w = wrap a ↔ Fits w ∧ w ≡ a [ZMOD 2 ^ 32]) ∧
    (∀ a, wrap (wrap a) = wrap a) ∧
    (∀ f ∈ binary, Modular f) ∧
    (∀ a, Fits (not a) ∧ wrap (not a) = not (wrap a) ∧
      ∀ a', a ≡ a' [ZMOD 2 ^ 32] → not a = not a') ∧
    (∀ f ∈ [add, mul, and, or], ∀ a b c, f a b = f b a ∧ f (f a b) c = f a (f b c)) ∧
    (∀ f ∈ [shiftLeft, shiftRightLogical, shiftRightArithmetic], ∀ a b b', b ≡ b' [ZMOD 32] →
      f a b = f a b') ∧
    ∀ (a : Int) (n : Nat), n < 32 →
      shiftLeft a n = wrap (a * 2 ^ n) ∧
      shiftRightLogical a n = wrap ⌊((a % 2 ^ 32 : Int) : ℚ) / 2 ^ n⌋ ∧
      shiftRightArithmetic a n = ⌊(wrap a : ℚ) / 2 ^ n⌋ := by
  refine ⟨fun a w => eq_wrap_iff, wrap_wrap, fun f => modular_of_mem,
    fun a => ⟨fits_wrap _, ?_, fun a' h => ?_⟩, comm_assoc_of_mem, ?_, fun a n hn => ?_⟩
  · have hword : wrap (not a) = not a := wrap_wrap (-a - 1)
    rw [hword, not_eq_toInt, not_eq_toInt, bits_wrap]
  · rw [not_eq_toInt, not_eq_toInt, bits_eq_iff.2 h]
  · simp only [List.forall_mem_cons, List.not_mem_nil, false_implies, implies_true, and_true]
    refine ⟨fun a b b' h => ?_, fun a b b' h => ?_, fun a b b' h => ?_⟩
    · rw [shiftLeft, shiftLeft, shiftAmount_congr h]
    · rw [shiftRightLogical, shiftRightLogical, shiftAmount_congr h]
    · rw [shiftRightArithmetic, shiftRightArithmetic, shiftAmount_congr h]
  · rw [floor_div_two_pow, floor_div_two_pow, shiftLeft, shiftRightLogical, shiftRightArithmetic,
      shiftAmount_natCast hn]
    exact ⟨rfl, rfl, rfl⟩

end MiniRisc.Word
