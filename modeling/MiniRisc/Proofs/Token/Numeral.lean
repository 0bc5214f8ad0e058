import MiniRisc.Proofs.Text.Endings
import MiniRisc.Proofs.Token.Layout
import MiniRisc.Proofs.Token.Overlong
/-! Numerals, which denote integers of any size by the positions of their digits. Those within the
limits of literals are read as the patterns of their integers, and of all others the integer itself
is told if it can be written. -/
namespace MiniRisc
open Lexeme

namespace Text

/-- The characters that are digits of a base. Letters are digits in either case. -/
def digitChars : Nat → List Char
  | 2 => "01".toList
  | 8 => "01234567".toList
  | 10 => "0123456789".toList
  | _ => "0123456789abcdefABCDEF".toList

def digitNumber (c : Char) : Nat := "0123456789abcdef".toList.idxOf c.toLower

private theorem isDigitOf_of_mem_digitChars {base : Nat} {mark : List Char}
    (hb : BaseMark base mark) : ∀ c ∈ digitChars base, isDigitOf base c = true := by
  have table : (digitChars base).all (isDigitOf base) = true := by cases hb <;> decide
  exact List.all_eq_true.1 table

private theorem digitValue_of_mem_digitChars {base : Nat} {mark : List Char}
    (hb : BaseMark base mark) : ∀ c ∈ digitChars base, digitValue c = digitNumber c := by
  have table : (digitChars base).map digitValue = (digitChars base).map digitNumber := by
    cases hb <;> decide
  exact List.map_inj_left.1 table

/-- Digits denote their numbers times powers of the base, the last digit times one. -/
theorem ofDigits_eq {digits : List Char} (base : Nat)
    (h : ∀ c ∈ digits, digitValue c = digitNumber c) :
    ofDigits base digits = Nat.ofDigits base (digits.reverse.map digitNumber) := by
  induction digits using List.reverseRecOn with
  | nil => rfl
  | append_singleton front c ih =>
    have hfront := ih fun d hd => h d (List.mem_append_left _ hd)
    have hc : digitValue c = digitNumber c := h c (by simp)
    rw [ofDigits_append, hfront, hc, List.reverse_concat, List.map_cons, Nat.ofDigits_cons,
      Nat.add_comm, Nat.mul_comm]

/-- A text without line endings is one line. -/
theorem lines_of_not_mem {source : String} (hl : '\n' ∉ source.toList) (hr : '\r' ∉ source.toList) :
    lines source = [source] := by
  let t : Lined := ⟨source, [], by simpa using ⟨hl, hr⟩, .nil⟩
  have hsource : t.source = source := by
    rw [Lined.source, Lined.charsOf, List.flatMap_nil, List.append_nil, String.ofList_toList]
  rw [← hsource, t.lines_source, hsource]
  rfl

end Text

namespace Token

/-- A number as it is written: a sign or none, the mark of a base, and digits of the base, of any
number up to what is read. -/
structure Numeral where
  sign : List Char
  base : Nat
  mark : List Char
  digits : List Char
  signed : sign ∈ [[], ['+'], ['-']]
  marked : BaseMark base mark
  present : digits ≠ []
  legal : ∀ c ∈ digits, c ∈ Text.digitChars base
  readable : Readable base digits

namespace Numeral
variable (n : Numeral)

def text : List Char := n.sign ++ (n.mark ++ n.digits)

def value : Int :=
  let magnitude : Nat := Nat.ofDigits n.base (n.digits.reverse.map Text.digitNumber)
  if n.sign = ['-'] then -magnitude else magnitude

def Fits : Prop := -32768 ≤ n.value ∧ n.value ≤ 65535

instance : Decidable n.Fits := inferInstanceAs (Decidable (_ ∧ _))

theorem digit : ∀ c ∈ n.digits, Text.isDigitOf n.base c = true :=
  fun c hc => Text.isDigitOf_of_mem_digitChars n.marked c (n.legal c hc)

theorem literalValue_eq : literalValue n.sign n.base n.digits = n.value := by
  have hdigits : Text.ofDigits n.base n.digits = _ := Text.ofDigits_eq n.base fun c hc =>
    Text.digitValue_of_mem_digitChars n.marked c (n.legal c hc)
  rw [literalValue, hdigits]
  rfl

def literal (h : n.Fits) : Literal where
  sign := n.sign
  base := n.base
  mark := n.mark
  digits := n.digits
  signed := n.signed
  marked := n.marked
  present := n.present
  legal := n.digit
  readable := n.readable
  low := n.literalValue_eq ▸ h.1
  high := n.literalValue_eq ▸ h.2

theorem pattern_literal (h : n.Fits) : (n.literal h).pattern = (n.value % 2 ^ 32).toNat := by
  rw [← n.literalValue_eq]
  rfl

private theorem literalAt : LiteralAt n.sign n.base n.mark n.digits [] :=
  .of_digits n.signed n.marked n.present n.digit nofun

private theorem isAlphanum_of_baseMark {base : Nat} {mark : List Char} (hb : BaseMark base mark) :
    ∀ c ∈ mark, c.isAlphanum = true := by
  have table : mark.all Char.isAlphanum = true := by cases hb <;> decide
  exact List.all_eq_true.1 table

/-- A numeral has signs, letters and digits only. -/
theorem of_mem_text {c : Char} (h : c ∈ n.text) : (isSign c || c.isAlphanum) = true := by
  rw [Bool.or_eq_true]
  rw [text, List.mem_append, List.mem_append] at h
  rcases h with h | h | h
  · have hs := n.signed
    simp only [List.mem_cons, List.not_mem_nil, or_false] at hs
    left
    rcases hs with hs | hs | hs <;> rw [hs] at h
    · cases h
    · rw [List.mem_singleton.1 h]
      rfl
    · rw [List.mem_singleton.1 h]
      rfl
  · exact .inr (isAlphanum_of_baseMark n.marked c h)
  · exact .inr (isAlphanum_of_isDigitOf (n.digit c h))

theorem text_ne_nil : n.text ≠ [] := by
  rw [text, Ne, List.append_eq_nil_iff, List.append_eq_nil_iff]
  exact fun h => n.present h.2.2

/-- A numeral is read to its last digit, and its integer decides. -/
theorem cut_text {c : Char} {cs : List Char} (h : n.text = c :: cs) : cut c cs =
    ⟨if n.Fits then .ok (.token (.integer (n.value % 2 ^ 32).toNat))
      else .error (.ofValue n.value), n.text, []⟩ := by
  have hcut := n.literalAt.cut_eq (by rw [List.append_nil]; exact h)
  rw [literal_of_digits n.present n.digit n.readable, n.literalValue_eq] at hcut
  exact hcut

/-- A numeral by itself is one token, with the pattern of its integer, unless the integer is out of
range, which is told if it can be written. -/
theorem ofSource_text : ofSource (String.ofList n.text) =
    if n.Fits then
      .ok [⟨.integer (n.value % 2 ^ 32).toNat, {}⟩, ⟨.textEnd, ⟨1, 1 + n.text.length⟩⟩]
    else if n.value.natAbs < 10 ^ Text.digitLimit then
      .error (.lexical (.outOfRange n.value) {} (String.ofList n.text))
    else .error { cause := .numeral .writing } := by
  have hline : '\n' ∉ n.text := fun hm => by cases n.of_mem_text hm
  have hreturn : '\r' ∉ n.text := fun hm => by cases n.of_mem_text hm
  have hlines : Text.lines (String.ofList n.text) = [String.ofList n.text] :=
    Text.lines_of_not_mem (by rwa [String.toList_ofList]) (by rwa [String.toList_ofList])
  have hplace : ({} : Place).after n.text = ⟨1, 1 + n.text.length⟩ := by
    rw [Place.after_eq_behind, Place.behind, List.count_eq_zero.2 hline,
      Text.lastLine_of_not_mem hline]
    rfl
  have hscan : Scan.ofChars n.text = Cursor.scan ⟨n.text, {}⟩ := rfl
  obtain ⟨c, cs, htext⟩ := List.exists_cons_of_ne_nil n.text_ne_nil
  have hcut := n.cut_text htext
  rw [ofSource, Scan.ofSource, String.toList_ofList, Text.foldNewlines_of_not_mem hreturn, hlines,
    hscan]
  by_cases h : n.Fits
  · rw [if_pos h] at hcut ⊢
    have hfound := Cursor.scan_of_ok (p := {}) (congrArg Cut.found hcut)
    rw [hcut, ← htext] at hfound
    rw [hfound, hplace, Cursor.scan_nil]
    rfl
  · rw [if_neg h] at hcut ⊢
    have hfound := Cursor.scan_of_error (p := {}) (congrArg Cut.found hcut)
    rw [← htext] at hfound
    rw [hfound]
    split
    · rename_i short
      rw [ofValue_of_short short]
      rfl
    · rename_i long
      rw [ofValue_of_long long]
      rfl

end Numeral
end Token
end MiniRisc
