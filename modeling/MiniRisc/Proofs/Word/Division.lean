import MiniRisc.Proofs.Word.Wrapping
/-! Division of integers of any size. Quotient and remainder always make up the dividend modulo
2^32; those of words do so exactly, but for the one quotient that is no word. -/
namespace MiniRisc.Word

/-- The integer next to a rational number on the side of zero. -/
def towardZero (x : ℚ) : Int := if 0 ≤ x then ⌊x⌋ else ⌈x⌉

/-- What a quotient and a remainder have to do with the operands. -/
structure Divided (a b quotient remainder : Int) : Prop where
  fits_quotient : Fits quotient
  fits_remainder : Fits remainder
  congruent : b * quotient + remainder ≡ a [ZMOD 2 ^ 32]
  smaller : Fits a → Fits b → |remainder| < |b|
  sign : Fits a → Fits b → remainder = 0 ∨ remainder.sign = a.sign
  exact : Fits a → Fits b → ¬ (a = -2 ^ 31 ∧ b = -1) →
    quotient = towardZero (a / b) ∧ a = b * quotient + remainder
  overflow : a = -2 ^ 31 → b = -1 → quotient = -2 ^ 31 ∧ remainder = 0

section Quotients
variable {a b : Int}

private theorem towardZero_neg (x : ℚ) : towardZero (-x) = -towardZero x := by
  rcases lt_trichotomy x 0 with h | rfl | h
  · rw [towardZero, towardZero, if_pos (by linarith), if_neg (by linarith), Int.floor_neg]
  · simp [towardZero]
  · rw [towardZero, towardZero, if_neg (by linarith), if_pos h.le, Int.ceil_neg]

private theorem towardZero_natCast_div (m n : Nat) : towardZero (m / n) = (m : Int).tdiv n := by
  rw [towardZero, if_pos (by positivity), Rat.floor_natCast_div_natCast,
    Int.tdiv_eq_ediv_of_nonneg (Int.natCast_nonneg m)]

/-- A rational is rounded as its absolute value is, and has its sign before and behind. -/
theorem towardZero_div (a b : Int) : towardZero (a / b) = a.tdiv b := by
  obtain ⟨m, rfl | rfl⟩ := a.eq_nat_or_neg <;> obtain ⟨n, rfl | rfl⟩ := b.eq_nat_or_neg <;>
    push_cast
  · exact towardZero_natCast_div m n
  · rw [div_neg, towardZero_neg, towardZero_natCast_div, Int.tdiv_neg]
  · rw [neg_div, towardZero_neg, towardZero_natCast_div, Int.neg_tdiv]
  · rw [neg_div_neg_eq, towardZero_natCast_div, Int.neg_tdiv, Int.tdiv_neg, Int.neg_neg]

private theorem abs_tmod_lt (a : Int) (hb : b ≠ 0) : |a.tmod b| < |b| := by
  rw [Int.abs_eq_natAbs, Int.abs_eq_natAbs, Int.natAbs_tmod]
  exact Int.ofNat_lt.2 (Nat.mod_lt _ (Int.natAbs_pos.2 hb))

private theorem sign_tmod_eq (a b : Int) : a.tmod b = 0 ∨ (a.tmod b).sign = a.sign := by
  rw [← Int.sign_eq_zero_iff_zero, Int.sign_tmod]
  split
  · exact .inl rfl
  · exact .inr rfl

private theorem fits_tmod (hb : Fits b) (h : b ≠ 0) : Fits (a.tmod b) := by
  have hlt := abs_lt.1 (abs_tmod_lt a h)
  have hle : |b| ≤ 2 ^ 31 := abs_le.2 ⟨hb.1, hb.2.le⟩
  exact ⟨by omega, by omega⟩

/-- A quotient of words is a word unless the lowest word is negated. -/
theorem fits_tdiv (ha : Fits a) (h : b ≠ 0) (hover : ¬ (a = -2 ^ 31 ∧ b = -1)) :
    Fits (a.tdiv b) := by
  obtain ⟨lower, upper⟩ := ha
  by_cases hone : b = 1 ∨ b = -1
  · rcases hone with rfl | rfl
    · rw [Int.tdiv_one]
      exact ⟨lower, upper⟩
    · rw [Int.tdiv_neg, Int.tdiv_one]
      exact ⟨by omega, by omega⟩
  · have hhalf : (a.tdiv b).natAbs ≤ a.natAbs / 2 := by
      rw [Int.natAbs_tdiv]
      exact Nat.div_le_div_left (by omega) (by decide)
    exact ⟨by omega, by omega⟩

private theorem divided_wrap (h : b ≠ 0) : Divided a b (wrap (a.tdiv b)) (wrap (a.tmod b)) where
  fits_quotient := fits_wrap _
  fits_remainder := fits_wrap _
  congruent := by
    have hsum := ((wrap_modEq (a.tdiv b)).mul_left b).add (wrap_modEq (a.tmod b))
    rwa [Int.mul_tdiv_add_tmod] at hsum
  smaller _ hb := by
    have hr := fits_tmod (a := a) hb h
    rw [wrap_of_fits hr.1 hr.2]
    exact abs_tmod_lt a h
  sign _ hb := by
    have hr := fits_tmod (a := a) hb h
    rw [wrap_of_fits hr.1 hr.2]
    exact sign_tmod_eq a b
  exact ha hb hover := by
    have hq := fits_tdiv ha h hover
    have hr := fits_tmod (a := a) hb h
    rw [wrap_of_fits hq.1 hq.2, wrap_of_fits hr.1 hr.2, towardZero_div, Int.mul_tdiv_add_tmod]
    exact ⟨rfl, rfl⟩
  overflow ha hb := by
    subst ha hb
    decide

end Quotients

/-- Only division by zero has no result. Other quotients and remainders are words that make up the
dividend modulo 2^32. Those of words make it up exactly: the quotient is rounded toward zero, and
the remainder is smaller than the divisor and has the sign of the dividend. Only the lowest word
divided by minus one is itself. -/
theorem division_lawful (a b : Int) :
    (div? a b = none ↔ b = 0) ∧ (mod? a b = none ↔ b = 0) ∧
    (b ≠ 0 → ∃ quotient remainder, div? a b = some quotient ∧ mod? a b = some remainder ∧
      Divided a b quotient remainder) := by
  refine ⟨by simp [div?], by simp [mod?], fun h => ⟨_, _, ?_, ?_, divided_wrap h⟩⟩
  · rw [div?, if_neg h]
  · rw [mod?, if_neg h]

/-- Of operands that are no words the exact quotient may be wrapped. -/
example : div? (2 ^ 40 + 5) (-4) = some (-1) ∧ mod? (2 ^ 40 + 5) (-4) = some 1 := by decide

end MiniRisc.Word
