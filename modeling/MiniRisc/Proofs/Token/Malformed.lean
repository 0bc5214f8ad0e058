import MiniRisc.Proofs.Text.Digits
import MiniRisc.Proofs.Token.Segmentation
/-! What is no construct of assembly text, by its characters alone, and why. Wherever reading stops
there is such a text. -/
namespace MiniRisc
namespace Lexeme

/-- A character that neither begins a construct nor is one. -/
def Foreign (c : Char) : Prop :=
  c.isAlphanum = false ∧ c ∉ " \t\x0b\x0c\n@/+-,:[]$_.".toList

/-- Texts that no construct is at the front of, with the fault. Letters and digits behind a sign or
a mark belong to a literal, and all of them; without either the first is a digit. -/
inductive Malformed : LexicalFault → List Char → Prop
  | strayCharacter {c : Char} {rest : List Char} (foreign : Foreign c) :
      Malformed (.strayCharacter c) (c :: rest)
  | straySlash {rest : List Char} (h : rest.head? ≠ some '*') : Malformed .straySlash ('/' :: rest)
  | unterminatedComment {body : List Char}
      (h : ∀ front back, body ≠ front ++ '*' :: '/' :: back) :
      Malformed .unterminatedComment ('/' :: '*' :: body)
  | noDigits {sign mark behind : List Char} {base : Nat} (hs : sign ∈ [[], ['+'], ['-']])
      (hb : BaseMark base mark) (begun : sign ++ mark ≠ [])
      (stop : StopsAt Char.isAlphanum behind) :
      Malformed .noDigits (sign ++ (mark ++ behind))
  | invalidDigits {sign mark digits behind : List Char} {base : Nat}
      (hs : sign ∈ [[], ['+'], ['-']]) (hb : BaseMark base mark)
      (unmarked : mark = [] → Unmarked digits)
      (first : sign ++ mark = [] → ∃ d, digits.head? = some d ∧ d.isDigit)
      (run : ∀ d ∈ digits, d.isAlphanum = true) (stop : StopsAt Char.isAlphanum behind)
      (bad : ∃ d ∈ digits, Text.isDigitOf base d = false) :
      Malformed (.invalidDigits base (String.ofList digits)) (sign ++ (mark ++ (digits ++ behind)))
  | outOfRange {sign mark digits behind : List Char} {base : Nat}
      (hs : sign ∈ [[], ['+'], ['-']]) (hb : BaseMark base mark) (hn : digits ≠ [])
      (digit : ∀ d ∈ digits, Text.isDigitOf base d = true) (stop : StopsAt Char.isAlphanum behind)
      (readable : Readable base digits)
      (far : literalValue sign base digits < lowestLiteral ∨
        highestLiteral < literalValue sign base digits)
      (short : (literalValue sign base digits).natAbs < 10 ^ Text.digitLimit) :
      Malformed (.outOfRange (literalValue sign base digits)) (sign ++ (mark ++ (digits ++ behind)))
  | unreadable {sign digits behind : List Char} (hs : sign ∈ [[], ['+'], ['-']])
      (digit : ∀ d ∈ digits, Text.isDigitOf 10 d = true) (stop : StopsAt Char.isAlphanum behind)
      (many : Text.digitLimit < digits.length) :
      Malformed (.numeral (.reading digits.length)) (sign ++ (digits ++ behind))
  | unwritable {sign mark digits behind : List Char} {base : Nat}
      (hs : sign ∈ [[], ['+'], ['-']]) (hb : BaseMark base mark) (marked : mark ≠ [])
      (digit : ∀ d ∈ digits, Text.isDigitOf base d = true) (stop : StopsAt Char.isAlphanum behind)
      (long : 10 ^ Text.digitLimit ≤ (literalValue sign base digits).natAbs) :
      Malformed (.numeral .writing) (sign ++ (mark ++ (digits ++ behind)))

section Numbers
variable {sign mark digits : List Char} {base : Nat}

/-- A number that is read from decimal digits can be written in them. -/
theorem short_of_unmarked (hb : BaseMark base mark) (unmarked : mark = [])
    (digit : ∀ d ∈ digits, Text.isDigitOf base d = true) (readable : Readable base digits) :
    (literalValue sign base digits).natAbs < 10 ^ Text.digitLimit := by
  subst unmarked
  cases hb
  rw [natAbs_literalValue]
  exact Nat.lt_of_lt_of_le (Text.ofDigits_lt digit)
    (Nat.pow_le_pow_right (by decide) (readable rfl))

theorem short_of_window {value : Int} (low : lowestLiteral ≤ value)
    (high : value ≤ highestLiteral) : value.natAbs < 10 ^ Text.digitLimit := by
  have hfits : -2 ^ 31 ≤ value ∧ value < 2 ^ 31 := by
    rw [lowestLiteral] at low
    rw [highestLiteral] at high
    omega
  exact Text.isWritable_iff.1 (Text.isWritable_of_fits hfits.1 hfits.2)

theorem ofValue_of_short {value : Int} (h : value.natAbs < 10 ^ Text.digitLimit) :
    LexicalFault.ofValue value = .outOfRange value := by
  rw [LexicalFault.ofValue, if_pos (Text.isWritable_iff.2 h)]

theorem ofValue_of_long {value : Int} (h : ¬ value.natAbs < 10 ^ Text.digitLimit) :
    LexicalFault.ofValue value = .numeral .writing := by
  rw [LexicalFault.ofValue, if_neg (Text.isWritable_iff.not.2 h)]

private theorem literal_of_unreadable (digit : ∀ d ∈ digits, Text.isDigitOf 10 d = true)
    (many : Text.digitLimit < digits.length) :
    literal sign 10 digits = .error (.numeral (.reading digits.length)) := by
  have hn : digits ≠ [] := by
    rintro rfl
    cases many
  rw [literal, if_neg hn, if_pos (List.all_eq_true.2 digit), if_pos ⟨rfl, many⟩]

private theorem ne_nil_of_long
    (long : 10 ^ Text.digitLimit ≤ (literalValue sign base digits).natAbs) : digits ≠ [] := by
  rintro rfl
  rw [natAbs_literalValue] at long
  exact absurd long (Nat.not_le.2 (Nat.pow_pos (by decide)))

private theorem literal_of_unwritable (hb : BaseMark base mark) (marked : mark ≠ [])
    (digit : ∀ d ∈ digits, Text.isDigitOf base d = true)
    (long : 10 ^ Text.digitLimit ≤ (literalValue sign base digits).natAbs) :
    literal sign base digits = .error (.numeral .writing) := by
  have readable : Readable base digits := by
    rintro rfl
    cases hb
    exact absurd rfl marked
  rw [literal_of_digits (ne_nil_of_long long) digit readable, if_neg,
    ofValue_of_long (Nat.not_lt.2 long)]
  exact fun window => absurd (short_of_window window.1 window.2) (Nat.not_lt.2 long)

end Numbers

section Cut
variable {c : Char} {cs body text : List Char} {fault : LexicalFault}

/-- A comment is never closed if no closing mark is in it. -/
theorem closeComment_eq_none_iff :
    closeComment body = none ↔ ∀ front back, body ≠ front ++ '*' :: '/' :: back := by
  constructor
  · intro h
    induction body with
    | nil => intro front back he; cases front <;> cases he
    | cons c rest ih =>
      rw [closeComment] at h
      split at h
      · cases h
      · rename_i hc
        intro front back he
        cases front with
        | nil =>
          cases he
          exact hc ⟨rfl, rfl⟩
        | cons d front =>
          obtain ⟨-, he⟩ := List.cons.inj he
          exact ih (Option.map_eq_none_iff.1 h) front back he
  · intro h
    cases hclose : closeComment body with
    | none => rfl
    | some closed =>
      obtain ⟨inner, htext, rfl, -⟩ := closeComment_eq_some_iff.1 hclose
      exact absurd (by rw [htext]; simp) (h inner closed.2)

private theorem malformed_of_cutSlash (h : (cutSlash cs).found = .error fault) :
    Malformed fault ('/' :: cs) := by
  unfold cutSlash at h
  split at h
  · unfold cutComment at h
    split at h
    · cases h
    · rename_i hclose
      cases h
      exact .unterminatedComment (closeComment_eq_none_iff.1 hclose)
  · rename_i hstar
    cases h
    refine .straySlash fun hh => ?_
    cases cs with
    | nil => cases hh
    | cons d rest =>
      cases hh
      exact hstar rest rfl

variable (text) in
/-- A base that is marked is read. -/
theorem unmarked_of_cutBase (h : (cutBase text).2.1 = []) :
    Unmarked ((cutBase text).2.2.takeWhile Char.isAlphanum) := by
  intro base mark hb hne hp
  have htext : (cutBase text).2.2 = text := by
    simpa [h] using cutBase_append text
  rw [htext] at hp
  obtain ⟨rest, rfl⟩ := hp.trans (List.takeWhile_prefix _)
  cases hb with
  | decimal => exact hne rfl
  | hexadecimal | octal | binary => cases h

private theorem isDigit_of_cutSign (hc : isSign c || c.isDigit) (h : (cutSign (c :: cs)).1 = []) :
    c.isDigit = true ∧ (cutSign (c :: cs)).2 = c :: cs := by
  rw [cutSign] at h ⊢
  split at h
  · cases h
  · rename_i hs
    rw [if_neg hs]
    exact ⟨by simpa [hs] using hc, rfl⟩

private theorem isAlphanum_of_isDigit (h : c.isDigit = true) : c.isAlphanum = true := by
  rw [Char.isAlphanum, h, Bool.or_true]

variable (cs) in
/-- A literal without a sign and a mark begins with its first digit. -/
theorem digits_of_cutLiteral (hc : isSign c || c.isDigit)
    (h : (cutSign (c :: cs)).1 ++ (cutBase (cutSign (c :: cs)).2).2.1 = []) : c.isDigit = true ∧
      (cutBase (cutSign (c :: cs)).2).2.2.takeWhile Char.isAlphanum =
        c :: cs.takeWhile Char.isAlphanum := by
  obtain ⟨hsign, hmark⟩ := List.append_eq_nil_iff.1 h
  obtain ⟨hdigit, hunsigned⟩ := isDigit_of_cutSign hc hsign
  have hbody := cutBase_append (cutSign (c :: cs)).2
  rw [hmark, List.nil_append, hunsigned] at hbody
  refine ⟨hdigit, ?_⟩
  rw [hunsigned, hbody, List.takeWhile_cons, if_pos (isAlphanum_of_isDigit hdigit)]

/-- Where a sign or a digit is, a literal is read. -/
theorem exists_literalAt (hc : isSign c || c.isDigit) : ∃ sign base mark digits behind,
    LiteralAt sign base mark digits behind ∧
      sign ++ (mark ++ (digits ++ behind)) = c :: cs := by
  have hparts : LiteralAt (cutSign (c :: cs)).1 (cutBase (cutSign (c :: cs)).2).1
      (cutBase (cutSign (c :: cs)).2).2.1
      ((cutBase (cutSign (c :: cs)).2).2.2.takeWhile Char.isAlphanum)
      ((cutBase (cutSign (c :: cs)).2).2.2.dropWhile Char.isAlphanum) := by
    refine ⟨cutSign_mem _, baseMark_cutBase _, unmarked_of_cutBase _, fun hbare => ?_,
      fun _ hd => mem_takeWhile hd, stopsAt_dropWhile _⟩
    obtain ⟨hdigit, hdigits⟩ := digits_of_cutLiteral cs hc hbare
    exact ⟨c, by rw [hdigits]; rfl, hdigit⟩
  refine ⟨_, _, _, _, _, hparts, ?_⟩
  rw [List.takeWhile_append_dropWhile, cutBase_append, cutSign_append]

/-- A literal that denotes nothing is malformed. -/
theorem malformed_of_literal {sign mark digits behind : List Char} {base : Nat}
    (hparts : LiteralAt sign base mark digits behind)
    (h : literal sign base digits = .error fault) :
    Malformed fault (sign ++ (mark ++ (digits ++ behind))) := by
  obtain ⟨hs, hb, hunmarked, hfirst, hrun, hstop⟩ := hparts
  rw [literal] at h
  split at h
  · rename_i hn
    subst hn
    cases h
    rw [List.nil_append]
    refine .noDigits hs hb (fun hbare => ?_) hstop
    obtain ⟨d, hd, -⟩ := hfirst hbare
    cases hd
  · rename_i hn
    split at h
    · rename_i hall
      have hdigit := List.all_eq_true.1 hall
      split at h
      · rename_i hmany
        obtain ⟨rfl, many⟩ := hmany
        cases hb
        cases h
        exact .unreadable hs hdigit hstop many
      · rename_i hfew
        have readable := readable_iff.2 hfew
        dsimp only at h
        split at h
        · cases h
        · rename_i hrange
          by_cases short : (literalValue sign base digits).natAbs < 10 ^ Text.digitLimit
          · rw [ofValue_of_short short] at h
            cases h
            exact .outOfRange hs hb hn hdigit hstop readable (by omega) short
          · rw [ofValue_of_long short] at h
            cases h
            exact .unwritable hs hb
              (fun unmarked => short (short_of_unmarked hb unmarked hdigit readable)) hdigit hstop
              (Nat.not_lt.1 short)
    · rename_i hall
      cases h
      exact .invalidDigits hs hb hunmarked hfirst hrun hstop (by simpa using hall)

private theorem foreign_of_not (hspace : ¬ isSpace c) (hline : c ≠ '\n') (hat : c ≠ '@')
    (hslash : c ≠ '/') (hliteral : ¬ (isSign c || c.isDigit)) (hname : ¬ startsName c)
    (hmark : Mark.ofChar? c = none) : Foreign c := by
  constructor
  · simp only [Bool.or_eq_true, not_or] at hliteral
    simp only [startsName, Bool.or_eq_true, not_or] at hname
    simp [Char.isAlphanum, hliteral.2, hname.1.1.1]
  · intro hm
    have hm : c ∈ [' ', '\t', '\x0b', '\x0c', '\n', '@', '/', '+', '-', ',', ':', '[', ']', '$',
      '_', '.'] := hm
    simp only [List.mem_cons, List.not_mem_nil, or_false] at hm
    rcases hm with rfl | rfl | rfl | rfl | rfl | rfl | rfl | rfl | rfl | rfl | rfl | rfl | rfl |
      rfl | rfl | rfl <;> simp_all [isSpace, isSign, startsName, Mark.ofChar?]

/-- Where no construct is cut off a text, it is malformed. -/
theorem malformed_of_cut (h : (cut c cs).found = .error fault) : Malformed fault (c :: cs) := by
  unfold cut at h
  split at h
  · cases h
  rename_i hspace
  split at h
  · cases h
  rename_i hline
  split at h
  · cases h
  rename_i hat
  split at h
  · rename_i hslash
    subst hslash
    exact malformed_of_cutSlash h
  rename_i hslash
  split at h
  · rename_i hliteral
    obtain ⟨sign, base, mark, digits, behind, hparts, htext⟩ := @exists_literalAt c cs hliteral
    rw [← cut_of_literal hliteral, hparts.cut_eq htext] at h
    rw [← htext]
    exact malformed_of_literal hparts h
  rename_i hliteral
  split at h
  · cases h
  rename_i hname
  split at h
  · cases h
  · rename_i hmark
    cases h
    exact .strayCharacter (foreign_of_not hspace hline hat hslash hliteral hname hmark)

private theorem cut_of_foreign (h : Foreign c) : (cut c cs).found = .error (.strayCharacter c) := by
  obtain ⟨halnum, hmember⟩ := h
  have hne {d : Char} (hd : d ∈ " \t\x0b\x0c\n@/+-,:[]$_.".toList) : c ≠ d := by
    rintro rfl
    exact hmember hd
  rw [Char.isAlphanum, Bool.or_eq_false_iff] at halnum
  have hmark : Mark.ofChar? c = none := by
    cases hm : Mark.ofChar? c with
    | none => rfl
    | some m =>
      refine absurd (Mark.ofChar?_eq_some_iff.1 hm) (hne ?_)
      cases m <;> decide
  simp [cut, isSpace, isSign, startsName, halnum, hmark, hne (d := ' ') (by decide),
    hne (d := '\t') (by decide), hne (d := '\x0b') (by decide), hne (d := '\x0c') (by decide),
    hne (d := '\n') (by decide), hne (d := '@') (by decide), hne (d := '/') (by decide),
    hne (d := '+') (by decide), hne (d := '-') (by decide), hne (d := '$') (by decide),
    hne (d := '_') (by decide), hne (d := '.') (by decide)]

/-- No construct is cut off a malformed text. -/
theorem cut_of_malformed (h : Malformed fault text) (ht : text = c :: cs) :
    (cut c cs).found = .error fault := by
  cases h with
  | strayCharacter foreign =>
    cases ht
    exact cut_of_foreign foreign
  | straySlash h =>
    cases ht
    have hcut : cut '/' cs = cutSlash cs := rfl
    rw [hcut]
    unfold cutSlash
    split
    · exact absurd rfl h
    · rfl
  | unterminatedComment h =>
    rename_i body
    cases ht
    have hcut : cut '/' ('*' :: body) = cutComment body := rfl
    rw [hcut, cutComment, closeComment_eq_none_iff.2 h]
  | noDigits hs hb begun stop =>
    have hparts : LiteralAt _ _ _ [] _ := ⟨hs, hb, fun _ _ _ _ hne hp => hne (List.prefix_nil.1 hp),
      fun hbare => absurd hbare begun, List.forall_mem_nil _, stop⟩
    rw [hparts.cut_eq ht]
    rfl
  | @invalidDigits sign mark digits behind base hs hb unmarked first run stop bad =>
    have hparts : LiteralAt sign base mark digits behind := ⟨hs, hb, unmarked, first, run, stop⟩
    obtain ⟨d, hd, hinvalid⟩ := bad
    have hall : ¬ digits.all (Text.isDigitOf base) = true := fun hall => by
      rw [List.all_eq_true.1 hall d hd] at hinvalid
      cases hinvalid
    rw [hparts.cut_eq ht, literal, if_neg (List.ne_nil_of_mem hd), if_neg hall]
  | outOfRange hs hb hn digit stop readable far short =>
    rw [(LiteralAt.of_digits hs hb hn digit stop).cut_eq ht, literal_of_digits hn digit readable,
      if_neg (by omega), ofValue_of_short short]
  | unreadable hs digit stop many =>
    have hn := List.ne_nil_of_length_pos (Nat.zero_lt_of_lt many)
    rw [(LiteralAt.of_digits hs .decimal hn digit stop).cut_eq ht]
    exact literal_of_unreadable digit many
  | @unwritable sign mark digits behind base hs hb marked digit stop long =>
    rw [(LiteralAt.of_digits hs hb (ne_nil_of_long long) digit stop).cut_eq ht]
    exact literal_of_unwritable hb marked digit long

/-- A text has no construct at its front exactly if it is malformed. -/
theorem malformed_iff : Malformed fault (c :: cs) ↔ (cut c cs).found = .error fault :=
  ⟨fun h => cut_of_malformed h rfl, malformed_of_cut⟩

end Cut
end Lexeme
end MiniRisc
