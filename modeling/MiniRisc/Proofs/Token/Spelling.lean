import MiniRisc.Proofs.Text.Digits
import MiniRisc.Proofs.Token.Append
/-! Tokens by the characters that they are written with, and lines that are written token by token
with spaces between them. -/
namespace MiniRisc
open Lexeme

def IsWord (word : String) : Prop :=
  ∃ c cs, word.toList = c :: cs ∧ startsName c = true ∧ ∀ d ∈ cs, continuesName d = true

private theorem isWord_iff {word : String} : IsWord word ↔ (match word.toList with
    | [] => false
    | c :: cs => startsName c && cs.all continuesName) = true := by
  unfold IsWord
  cases word.toList with
  | nil => simp
  | cons c cs => simp [List.all_eq_true]

instance (word : String) : Decidable (IsWord word) := decidable_of_iff _ isWord_iff.symm

/-- A token of a line that is written with these characters, unless the next one continues them. -/
structure Spells (kind : Token.Kind) (word : List Char) : Prop where
  inner : kind.endsLine = false
  construct (behind : List Char) : StopsAt continuesName behind →
    Construct behind (.token kind) word

/-- Tokens of a line as they are written, with spaces between them. No token is continued by the
next character. -/
inductive Spelled : List Char → List Token.Kind → Prop
  | nil : Spelled [] []
  | space {text : List Char} {kinds : List Token.Kind} (rest : Spelled text kinds) :
      Spelled (' ' :: text) kinds
  | mark (m : Mark) {text : List Char} {kinds : List Token.Kind} (rest : Spelled text kinds) :
      Spelled (m.char :: text) (.mark m :: kinds)
  | word {kind : Token.Kind} {word text : List Char} {kinds : List Token.Kind}
      (spells : Spells kind word) (stop : StopsAt continuesName text) (rest : Spelled text kinds) :
      Spelled (word ++ text) (kind :: kinds)

section Spells
variable {c : Char} {behind : List Char}

theorem spells_name {word : String} (h : IsWord word) : Spells (.name word) word.toList := by
  obtain ⟨c, cs, hw, hc, hcs⟩ := h
  obtain rfl : word = String.ofList (c :: cs) := by rw [← hw, String.ofList_toList]
  rw [String.toList_ofList]
  exact ⟨rfl, fun behind stop => .name hc hcs stop⟩

theorem stopsAt_isAlphanum (h : StopsAt continuesName behind) :
    StopsAt Char.isAlphanum behind := by
  intro c hc
  have hstop := h c hc
  simp only [continuesName, Bool.or_eq_false_iff] at hstop
  exact hstop.1.1.1

/-- A number of a base within the limits of literals is written with its mark and its digits. -/
theorem spells_literal {sign mark : List Char} {base value : Nat} (hs : sign ∈ [[], ['+'], ['-']])
    (hb : BaseMark base mark)
    (low : lowestLiteral ≤ literalValue sign base (Text.toDigits base value))
    (high : literalValue sign base (Text.toDigits base value) ≤ highestLiteral) :
    Spells (.integer (literalValue sign base (Text.toDigits base value) % 2 ^ 32).toNat)
      (sign ++ (mark ++ Text.toDigits base value)) := by
  have hbase : 2 ≤ base ∧ base ≤ 36 := by cases hb <;> decide
  have readable : Readable base (Text.toDigits base value) := by
    rintro rfl
    have hvalue : value < 10 ^ 5 := by
      have habs := natAbs_literalValue sign 10 (Text.toDigits 10 value)
      rw [Text.ofDigits_toDigits hbase.1 hbase.2] at habs
      rw [lowestLiteral] at low
      rw [highestLiteral] at high
      omega
    exact Nat.le_trans (Text.length_toDigits_le (by decide) hvalue) (by decide)
  refine ⟨rfl, fun behind stop => ?_⟩
  exact .literal hs hb (Text.toDigits_ne_nil base value)
    (Text.isDigitOf_of_mem_toDigits hbase.1 hbase.2) readable low high (stopsAt_isAlphanum stop)

theorem spells_decimal {value : Int} (low : lowestLiteral ≤ value) (high : value ≤ highestLiteral) :
    Spells (.integer (value % 2 ^ 32).toNat) (Text.decimal value).toList := by
  have hdigits : Text.ofDigits 10 (Text.toDigits 10 value.natAbs) = value.natAbs :=
    Text.ofDigits_toDigits (by decide) (by decide)
  rw [Text.decimal, String.toList_ofList, Text.decimalChars]
  split
  · have hsign : ['-'] ∈ [[], ['+'], ['-']] := by simp
    have hvalue : literalValue ['-'] 10 (Text.toDigits 10 value.natAbs) = value := by
      rw [literalValue, if_pos rfl, hdigits]
      omega
    have hspells := spells_literal hsign .decimal (hvalue.symm ▸ low) (hvalue.symm ▸ high)
    rwa [hvalue] at hspells
  · have hsign : [] ∈ [[], ['+'], ['-']] := by simp
    have hvalue : literalValue [] 10 (Text.toDigits 10 value.natAbs) = value := by
      rw [literalValue, if_neg (by simp), hdigits]
      omega
    have hspells := spells_literal hsign .decimal (hvalue.symm ▸ low) (hvalue.symm ▸ high)
    rwa [hvalue] at hspells

theorem spells_hex {value : Nat} (high : (value : Int) ≤ highestLiteral) :
    Spells (.integer value) ("0x" ++ Text.hex value).toList := by
  have hdigits : Text.ofDigits 16 (Text.toDigits 16 value) = value :=
    Text.ofDigits_toDigits (by decide) (by decide)
  have hvalue : literalValue [] 16 (Text.toDigits 16 value) = value := by
    rw [literalValue, if_neg (by simp), hdigits]
  have hsign : [] ∈ [[], ['+'], ['-']] := by simp
  have hlow : lowestLiteral ≤ literalValue [] 16 (Text.toDigits 16 value) := by
    rw [hvalue, lowestLiteral]
    omega
  have hspells := spells_literal hsign .hexadecimal hlow (hvalue.symm ▸ high)
  have hpattern : (literalValue [] 16 (Text.toDigits 16 value) % 2 ^ 32).toNat = value := by
    rw [highestLiteral] at high
    rw [hvalue]
    omega
  have htext : ("0x" ++ Text.hex value).toList = ['0', 'x'] ++ Text.toDigits 16 value := by
    rw [String.toList_append, Text.hex]
    exact congrArg _ String.toList_ofList
  rw [hpattern] at hspells
  rwa [htext]

end Spells

/-- No token has a carriage return. -/
theorem return_not_mem_of_token {behind text : List Char} {kind : Token.Kind}
    (h : Construct behind (.token kind) text) : '\r' ∉ text := by
  intro hm
  cases h with
  | lineEnd => exact absurd hm (by decide)
  | mark m => cases m <;> exact absurd hm (by decide)
  | name first inner =>
    rcases List.mem_cons.1 hm with rfl | hm
    · cases first
    · cases inner '\r' hm
  | literal hs hb hn digit =>
    rcases List.mem_append.1 hm with hm | hm
    · simp only [List.mem_cons, List.not_mem_nil, or_false] at hs
      rcases hs with rfl | rfl | rfl <;> exact absurd hm (by decide)
    · rcases List.mem_append.1 hm with hm | hm
      · cases hb <;> exact absurd hm (by decide)
      · cases digit '\r' hm

namespace Spelled
variable {text : List Char} {kinds : List Token.Kind}

/-- No token ends the line. -/
theorem inner (h : Spelled text kinds) : ∀ kind ∈ kinds, kind.endsLine = false := by
  induction h with
  | nil => simp
  | space rest ih => exact ih
  | mark m rest ih =>
    intro kind hk
    rcases List.mem_cons.1 hk with rfl | hk
    · rfl
    · exact ih kind hk
  | word spells stop rest ih =>
    intro kind hk
    rcases List.mem_cons.1 hk with rfl | hk
    · exact spells.inner
    · exact ih kind hk

theorem return_not_mem (h : Spelled text kinds) : '\r' ∉ text := by
  induction h with
  | nil => simp
  | space rest ih => simp [ih]
  | mark m rest ih => cases m <;> simp [Mark.char, ih]
  | word spells stop rest ih =>
    rw [List.mem_append, not_or]
    exact ⟨return_not_mem_of_token (spells.construct _ stop), ih⟩

/-- What is written is made up of constructs, and they are the tokens. -/
theorem segmentation (h : Spelled text kinds) :
    ∃ segments, Segmentation text segments ∧ segments.filterMap Segment.kind? = kinds := by
  induction h with
  | nil => exact ⟨[], .nil, rfl⟩
  | space rest ih =>
    obtain ⟨segments, hs, hk⟩ := ih
    exact ⟨_, .cons (s := ⟨.blank, [' ']⟩) (.blank (.inl rfl)) hs, hk⟩
  | mark m rest ih =>
    obtain ⟨segments, hs, hk⟩ := ih
    refine ⟨_, .cons (s := ⟨.token (.mark m), [m.char]⟩) (.mark m) hs, ?_⟩
    rw [List.filterMap_cons, hk]
    rfl
  | @word kind word text kinds spells stop rest ih =>
    obtain ⟨segments, hs, hk⟩ := ih
    refine ⟨_, .cons (s := ⟨.token kind, word⟩) (spells.construct _ stop) hs, ?_⟩
    rw [List.filterMap_cons, hk]
    rfl

end Spelled

private theorem isWord_of_construct {behind text : List Char} {word : String}
    (h : Construct behind (.token (.name word)) text) : IsWord word := by
  cases h with
  | name first inner => exact ⟨_, _, String.toList_ofList, first, inner⟩

/-- The names of a text are words. -/
theorem Segment.isWord_of_segmentation {text : List Char} {segments : List Segment}
    (h : Segmentation text segments) (p : Place) :
    ∀ t ∈ tokens p segments, ∀ word, t.kind = .name word → IsWord word := by
  intro t ht word hk
  obtain ⟨behind, written, hconstruct⟩ := exists_construct h p t ht
  rw [hk] at hconstruct
  exact isWord_of_construct hconstruct

end MiniRisc
