import MiniRisc.Proofs.Text.Endings
import MiniRisc.Proofs.Token.Located
import MiniRisc.Proofs.Token.Reading
/-! Literals that nothing but the number of their digits is told of: decimal ones with more digits
than are read, and others of integers with more decimal digits than are written. -/
namespace MiniRisc

namespace Text
variable {base width : Nat} {c : Char}

/-- The highest digit alone gives the last number before the power. -/
theorem ofDigits_replicate (highest : digitValue c + 1 = base) (n : Nat) :
    ofDigits base (List.replicate n c) + 1 = base ^ n := by
  induction n with
  | zero => rfl
  | succ n ih =>
    rw [List.replicate_succ', ofDigits_append, Nat.add_assoc, highest, ← Nat.succ_mul, Nat.pow_succ,
      ← ih]

/-- Some part of the digits tells which power is larger. -/
theorem pow_digitLimit_lt {part times : Nat} (hlimit : digitLimit = part * times) (ht : times ≠ 0)
    (h : 10 ^ part < base ^ width) : 10 ^ digitLimit < base ^ (width * times) := by
  rw [hlimit, Nat.pow_mul, Nat.pow_mul]
  exact Nat.pow_lt_pow_left h ht

end Text

open Lexeme

section Highest
variable {sign mark : List Char} {base width : Nat} {c : Char}

theorem le_literalValue_replicate (sign : List Char) (highest : Text.digitValue c + 1 = base)
    (long : 10 ^ 43 < base ^ width) : 10 ^ Text.digitLimit ≤
      (literalValue sign base (List.replicate (width * 100) c)).natAbs := by
  have hvalue := Text.ofDigits_replicate highest (width * 100)
  have hlimit : Text.digitLimit = 43 * 100 := rfl
  have hpow := Text.pow_digitLimit_lt hlimit (by decide) long
  rw [← hvalue] at hpow
  rw [natAbs_literalValue]
  exact Nat.le_of_lt_succ hpow

/-- A literal of the highest digit alone, in sufficient number, is too long to be told. -/
theorem malformed_replicate (hs : sign ∈ [[], ['+'], ['-']]) (hb : BaseMark base mark)
    (marked : mark ≠ []) (hc : Text.isDigitOf base c = true)
    (highest : Text.digitValue c + 1 = base) (long : 10 ^ 43 < base ^ width) :
    Malformed (.numeral .writing) (sign ++ (mark ++ List.replicate (width * 100) c)) := by
  have digit : ∀ d ∈ List.replicate (width * 100) c, Text.isDigitOf base d = true :=
    fun d hd => List.eq_of_mem_replicate hd ▸ hc
  have stop : StopsAt Char.isAlphanum [] := nofun
  have h := Malformed.unwritable hs hb marked digit stop
    (le_literalValue_replicate sign highest long)
  rwa [List.append_nil] at h

end Highest

namespace Token

/-- Of a text that begins with a literal that is too long nothing else is told. -/
theorem ofSource_of_overlong {long : Text.NumeralFault} {c : Char} {cs : List Char}
    (hr : '\r' ∉ c :: cs) (h : Malformed (.numeral long) (c :: cs)) :
    ofSource (String.ofList (c :: cs)) = .error { cause := .numeral long } := by
  have hscan : Scan.ofChars (c :: cs) = Cursor.scan ⟨c :: cs, {}⟩ := rfl
  rw [ofSource, Scan.ofSource, String.toList_ofList, Text.foldNewlines_of_not_mem hr, hscan,
    Cursor.scan_of_error (cut_of_malformed h rfl)]
  rfl

theorem ofSource_replicate {sign mark : List Char} {base width : Nat} {c : Char}
    (hs : sign ∈ [[], ['+'], ['-']]) (hb : BaseMark base mark) (marked : mark ≠ [])
    (hc : Text.isDigitOf base c = true) (highest : Text.digitValue c + 1 = base)
    (long : 10 ^ 43 < base ^ width) :
    ofSource (String.ofList (sign ++ (mark ++ List.replicate (width * 100) c))) =
      .error { cause := .numeral .writing } := by
  have hm := malformed_replicate hs hb marked hc highest long
  have hreturn : '\r' ∉ sign ++ (mark ++ List.replicate (width * 100) c) := by
    rw [List.mem_append, List.mem_append, not_or, not_or]
    refine ⟨?_, by cases hb <;> decide, fun hr => ?_⟩
    · simp only [List.mem_cons, List.not_mem_nil, or_false] at hs
      rcases hs with rfl | rfl | rfl <;> decide
    · rw [← List.eq_of_mem_replicate hr] at hc
      cases hc
  have hne : sign ++ (mark ++ List.replicate (width * 100) c) ≠ [] := by simp [marked]
  obtain ⟨d, rest, htext⟩ := List.exists_cons_of_ne_nil hne
  rw [htext] at hm hreturn ⊢
  exact ofSource_of_overlong hreturn hm

end Token
end MiniRisc
