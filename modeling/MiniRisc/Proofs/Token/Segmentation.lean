import Mathlib
import MiniRisc.Token.Segment
/-! The constructs of assembly text by their characters alone, and the texts that they make up. A
comment ends where it is closed first, and a name or a literal where no character continues it, so
that a text is made up of constructs in one way at most. -/
namespace MiniRisc
namespace Lexeme

inductive BaseMark : Nat → List Char → Prop
  | decimal : BaseMark 10 []
  | hexadecimal : BaseMark 16 ['0', 'x']
  | octal : BaseMark 8 ['0', 'o']
  | binary : BaseMark 2 ['0', 'b']

def StopsAt (p : Char → Bool) (behind : List Char) : Prop :=
  ∀ c, behind.head? = some c → p c = false

/-- A closing mark comes after these characters, and not before. -/
def Unclosed (inner : List Char) : Prop :=
  ∀ front back, inner ++ ['*'] ≠ front ++ '*' :: '/' :: back

def Readable (base : Nat) (digits : List Char) : Prop :=
  base = 10 → digits.length ≤ Text.digitLimit

instance {base : Nat} {digits : List Char} : Decidable (Readable base digits) :=
  inferInstanceAs (Decidable (_ → _))

/-- A construct with its characters, where others are behind it. -/
inductive Construct (behind : List Char) : Piece → List Char → Prop
  | blank {c : Char} (h : c = ' ' ∨ c = '\t' ∨ c = '\x0b' ∨ c = '\x0c') :
      Construct behind .blank [c]
  | lineComment {inner : List Char} (h : '\n' ∉ inner)
      (stop : behind = [] ∨ behind.head? = some '\n') : Construct behind .comment ('@' :: inner)
  | blockComment {inner : List Char} (h : Unclosed inner) :
      Construct behind .comment ('/' :: '*' :: (inner ++ ['*', '/']))
  | lineEnd : Construct behind (.token .lineEnd) ['\n']
  | mark (m : Mark) : Construct behind (.token (.mark m)) [m.char]
  | name {c : Char} {cs : List Char} (first : startsName c)
      (inner : ∀ d ∈ cs, continuesName d = true) (stop : StopsAt continuesName behind) :
      Construct behind (.token (.name (String.ofList (c :: cs)))) (c :: cs)
  | literal {sign mark digits : List Char} {base : Nat} (hs : sign ∈ [[], ['+'], ['-']])
      (hb : BaseMark base mark) (hn : digits ≠ [])
      (digit : ∀ d ∈ digits, Text.isDigitOf base d = true) (readable : Readable base digits)
      (low : lowestLiteral ≤ literalValue sign base digits)
      (high : literalValue sign base digits ≤ highestLiteral)
      (stop : StopsAt Char.isAlphanum behind) :
      Construct behind (.token (.integer (literalValue sign base digits % 2 ^ 32).toNat))
        (sign ++ (mark ++ digits))

/-- Digits that do not begin with the mark of another base. -/
def Unmarked (digits : List Char) : Prop :=
  ∀ base mark, BaseMark base mark → mark ≠ [] → ¬ mark <+: digits

/-- The parts that a literal is read in at the front of a text, whether it is one or not: a sign or
none, a base mark, and all letters and digits that follow. Without a sign and a mark the first of
these is a digit. -/
structure LiteralAt (sign : List Char) (base : Nat) (mark digits behind : List Char) : Prop where
  signed : sign ∈ [[], ['+'], ['-']]
  marked : BaseMark base mark
  unmarked : mark = [] → Unmarked digits
  first : sign ++ mark = [] → ∃ d, digits.head? = some d ∧ d.isDigit = true
  run : ∀ d ∈ digits, d.isAlphanum = true
  stop : StopsAt Char.isAlphanum behind

theorem readable_iff {base : Nat} {digits : List Char} :
    Readable base digits ↔ ¬ (base = 10 ∧ Text.digitLimit < digits.length) := by
  rw [Readable, not_and, Nat.not_lt]

section Runs
variable {p : Char → Bool} {inner behind : List Char}

theorem stopsAt_dropWhile (text : List Char) : StopsAt p (text.dropWhile p) := by
  intro c hc
  simpa [hc] using List.head?_dropWhile_not p text

theorem mem_takeWhile {c : Char} {text : List Char} (h : c ∈ text.takeWhile p) : p c = true :=
  List.all_eq_true.1 List.all_takeWhile c h

private theorem takeWhile_of_stopsAt (hi : ∀ c ∈ inner, p c = true) (h : StopsAt p behind) :
    (inner ++ behind).takeWhile p = inner := by
  rw [List.takeWhile_append_of_pos hi]
  cases behind with
  | nil => simp
  | cons c rest => simp [h c rfl]

private theorem dropWhile_of_stopsAt (hi : ∀ c ∈ inner, p c = true) (h : StopsAt p behind) :
    (inner ++ behind).dropWhile p = behind := by
  rw [List.dropWhile_append_of_pos hi]
  cases behind with
  | nil => rfl
  | cons c rest => simp [h c rfl]

end Runs

section Comment
variable {c : Char} {inner body after text : List Char}

theorem unclosed_cons : Unclosed (c :: inner) ↔
    Unclosed inner ∧ ¬ (c = '*' ∧ inner.head? = some '/') := by
  constructor
  · refine fun h => ⟨fun front back he => h (c :: front) back (by simp [he]), ?_⟩
    rintro ⟨rfl, hd⟩
    cases inner with
    | nil => cases hd
    | cons d rest =>
      cases hd
      exact h [] (rest ++ ['*']) rfl
  · rintro ⟨h, hc⟩ front back he
    cases front with
    | nil =>
      obtain ⟨rfl, he⟩ := List.cons.inj he
      cases inner with
      | nil => cases he
      | cons d rest =>
        cases he
        exact hc ⟨rfl, rfl⟩
    | cons d front => exact h front back (List.cons.inj he).2

private theorem head?_closed : (inner ++ '*' :: '/' :: after).head? = some '/' ↔
    inner.head? = some '/' := by
  cases inner <;> simp

private theorem unclosed_nil : Unclosed [] := by
  intro front back he
  have hlength := congrArg List.length he
  simp only [List.length_append, List.length_cons, List.length_nil] at hlength
  omega

instance decidableUnclosed : (inner : List Char) → Decidable (Unclosed inner)
  | [] => isTrue unclosed_nil
  | _ :: inner =>
    have := decidableUnclosed inner
    decidable_of_iff _ unclosed_cons.symm

/-- A comment is searched up to its first closing mark. -/
theorem closeComment_eq_some_iff : closeComment body = some (text, after) ↔
    ∃ inner, text = inner ++ ['*', '/'] ∧ body = text ++ after ∧ Unclosed inner := by
  constructor
  · intro h
    induction body generalizing text with
    | nil => cases h
    | cons c rest ih =>
      have hbody := closeComment_append h
      rw [closeComment] at h
      by_cases hc : c = '*' ∧ rest.head? = some '/'
      · rw [if_pos hc] at h
        cases h
        exact ⟨[], rfl, hbody.symm, unclosed_nil⟩
      · rw [if_neg hc] at h
        obtain ⟨⟨text, after⟩, hr, he⟩ := Option.map_eq_some_iff.1 h
        cases he
        obtain ⟨inner, rfl, rfl, hu⟩ := ih hr
        refine ⟨c :: inner, rfl, rfl, unclosed_cons.2 ⟨hu, fun hclosed => hc ⟨hclosed.1, ?_⟩⟩⟩
        rw [List.append_assoc]
        exact head?_closed.2 hclosed.2
  · rintro ⟨inner, rfl, rfl, hu⟩
    induction inner with
    | nil => rfl
    | cons c inner ih =>
      obtain ⟨hu, hc⟩ := unclosed_cons.1 hu
      have hne : ¬ (c = '*' ∧ (inner ++ '*' :: '/' :: after).head? = some '/') :=
        fun hclosed => hc ⟨hclosed.1, head?_closed.1 hclosed.2⟩
      have ih := ih hu
      simp only [List.append_assoc, List.cons_append, List.nil_append] at ih ⊢
      rw [closeComment, if_neg hne, ih]
      rfl

end Comment

section Cut
variable {c : Char} {cs text behind : List Char} {piece : Piece}

private theorem construct_of_cutSlash (h : (cutSlash cs).found = .ok piece) :
    Construct (cutSlash cs).rest piece (cutSlash cs).text := by
  generalize hk : cutSlash cs = k at h ⊢
  unfold cutSlash cutComment at hk
  split at hk
  · split at hk
    · rename_i hclose
      subst hk
      cases h
      obtain ⟨inner, rfl, -, hu⟩ := closeComment_eq_some_iff.1 hclose
      exact .blockComment hu
    · subst hk
      cases h
  · subst hk
    cases h

theorem cutSign_mem (text : List Char) : (cutSign text).1 ∈ [[], ['+'], ['-']] := by
  unfold cutSign
  split
  · simp
  · split
    · rename_i c rest hs
      simpa [isSign] using hs
    · simp

private theorem baseMark_of_baseOfMark? {base : Nat} (h : baseOfMark? c = some base) :
    BaseMark base ['0', c] := by
  unfold baseOfMark? at h
  split at h
  · cases h
    exact .hexadecimal
  · cases h
    exact .octal
  · cases h
    exact .binary
  · cases h

theorem baseMark_cutBase (text : List Char) : BaseMark (cutBase text).1 (cutBase text).2.1 := by
  unfold cutBase
  split
  · split
    · rename_i letter rest base hb
      exact baseMark_of_baseOfMark? hb
    · exact .decimal
  · exact .decimal

private theorem construct_of_cutLiteral (h : (cutLiteral text).found = .ok piece) :
    Construct (cutLiteral text).rest piece (cutLiteral text).text := by
  simp only [cutLiteral] at h ⊢
  rw [List.append_assoc]
  rw [literal] at h
  split at h
  · cases h
  · rename_i hn
    split at h
    · rename_i hd
      split at h
      · cases h
      · rename_i hmany
        dsimp only at h
        split at h
        · rename_i hr
          cases h
          exact .literal (cutSign_mem text) (baseMark_cutBase _) hn (List.all_eq_true.1 hd)
            (readable_iff.2 hmany) hr.1 hr.2 (stopsAt_dropWhile _)
        · cases h
    · cases h

theorem construct_of_cut (h : (cut c cs).found = .ok piece) :
    Construct (cut c cs).rest piece (cut c cs).text := by
  generalize hk : cut c cs = k at h ⊢
  unfold cut at hk
  split at hk
  · rename_i hs
    subst hk
    cases h
    exact .blank (by simpa [isSpace, or_assoc] using hs)
  split at hk
  · subst hk
    cases h
    rename_i hc
    subst hc
    exact .lineEnd
  split at hk
  · subst hk
    cases h
    rename_i hc
    subst hc
    refine .lineComment (fun hm => by simpa using mem_takeWhile hm) ?_
    cases hd : cs.dropWhile (· ≠ '\n') with
    | nil => exact .inl rfl
    | cons d rest =>
      have hstop := stopsAt_dropWhile (p := (· ≠ '\n')) cs d (by rw [hd]; rfl)
      exact .inr (by simpa using hstop)
  split at hk
  · subst hk
    exact construct_of_cutSlash h
  split at hk
  · subst hk
    exact construct_of_cutLiteral h
  split at hk
  · rename_i hfirst
    subst hk
    cases h
    exact .name hfirst (fun _ hd => mem_takeWhile hd) (stopsAt_dropWhile cs)
  split at hk
  · rename_i m hm
    subst hk
    cases h
    rw [Mark.ofChar?_eq_some_iff.1 hm]
    exact .mark m
  · subst hk
    cases h

private theorem isDigit_of_isDigitOf (h : Text.isDigitOf 10 c = true) : c.isDigit = true := by
  obtain ⟨-, hv⟩ := Bool.and_eq_true_iff.1 h
  have hv : Text.digitValue c < 10 := of_decide_eq_true hv
  rw [Text.digitValue] at hv
  split at hv
  · assumption
  · split at hv <;> omega

theorem isAlphanum_of_isDigitOf {base : Nat} (h : Text.isDigitOf base c = true) :
    c.isAlphanum = true :=
  (Bool.and_eq_true_iff.1 h).1

private theorem isSign_of_isDigit (h : c.isDigit = true) : isSign c = false := by
  cases hs : isSign c with
  | false => rfl
  | true =>
    rw [isSign, Bool.or_eq_true, decide_eq_true_eq, decide_eq_true_eq] at hs
    rcases hs with rfl | rfl <;> cases h

private theorem isDigit_of_startsName (h : startsName c = true) : c.isDigit = false := by
  simp only [startsName, Char.isAlpha, Char.isUpper, Char.isLower, Bool.or_eq_true,
    Bool.and_eq_true, decide_eq_true_eq, UInt32.le_iff_toNat_le] at h
  simp only [Char.isDigit, Bool.and_eq_false_iff, decide_eq_false_iff_not, UInt32.le_iff_toNat_le]
  rcases h with ((((h | h) | rfl) | rfl) | rfl)
  · have : 'A'.val.toNat = 65 := rfl
    have : '9'.val.toNat = 57 := rfl
    omega
  · have : 'a'.val.toNat = 97 := rfl
    have : '9'.val.toNat = 57 := rfl
    omega
  all_goals decide

private theorem cut_of_startsName (h : startsName c = true) : cut c cs = cutName c cs := by
  have hne {d : Char} (hd : startsName d = false) : c ≠ d := by
    rintro rfl
    rw [h] at hd
    cases hd
  have hspace : isSpace c = false := by
    simp [isSpace, hne (d := ' ') rfl, hne (d := '\t') rfl, hne (d := '\x0b') rfl,
      hne (d := '\x0c') rfl]
  have hliteral : (isSign c || c.isDigit) = false := by
    simp [isSign, hne (d := '+') rfl, hne (d := '-') rfl, isDigit_of_startsName h]
  simp only [cut, hspace, hne (d := '\n') rfl, hne (d := '@') rfl, hne (d := '/') rfl, hliteral, h,
    Bool.false_eq_true, ↓reduceIte]

theorem cut_of_literal (h : (isSign c || c.isDigit) = true) : cut c cs = cutLiteral (c :: cs) := by
  have hne {d : Char} (hd : (isSign d || d.isDigit) = false) : c ≠ d := by
    rintro rfl
    rw [h] at hd
    cases hd
  have hspace : isSpace c = false := by
    simp [isSpace, hne (d := ' ') rfl, hne (d := '\t') rfl, hne (d := '\x0b') rfl,
      hne (d := '\x0c') rfl]
  simp only [cut, hspace, hne (d := '\n') rfl, hne (d := '@') rfl, hne (d := '/') rfl, h,
    Bool.false_eq_true, ↓reduceIte]

/-- Nothing that ends a literal marks a base. -/
theorem baseOfMark?_eq_none (h : c.isAlphanum = false) : baseOfMark? c = none := by
  unfold baseOfMark?
  split
  · cases h
  · cases h
  · cases h
  · rfl

private theorem unmarked_of_digits {digits : List Char}
    (digit : ∀ d ∈ digits, Text.isDigitOf 10 d = true) : Unmarked digits := by
  rintro base mark hb hne ⟨rest, rfl⟩
  cases hb with
  | decimal => exact hne rfl
  | hexadecimal => cases isDigit_of_isDigitOf (digit 'x' (by simp))
  | octal => cases isDigit_of_isDigitOf (digit 'o' (by simp))
  | binary => cases isDigit_of_isDigitOf (digit 'b' (by simp))

namespace LiteralAt
variable {sign mark digits : List Char} {base : Nat}

/-- Digits of a base that are marked as such are read as a literal. -/
theorem of_digits (hs : sign ∈ [[], ['+'], ['-']]) (hb : BaseMark base mark) (hn : digits ≠ [])
    (digit : ∀ d ∈ digits, Text.isDigitOf base d = true) (stop : StopsAt Char.isAlphanum behind) :
    LiteralAt sign base mark digits behind where
  signed := hs
  marked := hb
  unmarked hmark := by
    subst hmark
    cases hb
    exact unmarked_of_digits digit
  first hbare := by
    obtain ⟨-, rfl⟩ := List.append_eq_nil_iff.1 hbare
    cases hb
    obtain ⟨d, rest, rfl⟩ := List.exists_cons_of_ne_nil hn
    exact ⟨d, rfl, isDigit_of_isDigitOf (digit d List.mem_cons_self)⟩
  run d hd := isAlphanum_of_isDigitOf (digit d hd)
  stop := stop

private theorem exists_digit (h : LiteralAt [] base mark digits behind) :
    ∃ d rest, mark ++ (digits ++ behind) = d :: rest ∧ d.isDigit = true := by
  cases h.marked with
  | decimal =>
    obtain ⟨d, hd, hdigit⟩ := h.first rfl
    obtain ⟨rest, rfl⟩ := List.head?_eq_some_iff.1 hd
    exact ⟨d, rest ++ behind, rfl, hdigit⟩
  | hexadecimal => exact ⟨'0', 'x' :: (digits ++ behind), rfl, rfl⟩
  | octal => exact ⟨'0', 'o' :: (digits ++ behind), rfl, rfl⟩
  | binary => exact ⟨'0', 'b' :: (digits ++ behind), rfl, rfl⟩

private theorem cutSign_eq (h : LiteralAt sign base mark digits behind) :
    cutSign (sign ++ (mark ++ (digits ++ behind))) = (sign, mark ++ (digits ++ behind)) := by
  have hs := h.signed
  simp only [List.mem_cons, List.not_mem_nil, or_false] at hs
  rcases hs with rfl | rfl | rfl
  · obtain ⟨d, rest, htext, hdigit⟩ := h.exists_digit
    rw [List.nil_append, htext, cutSign, isSign_of_isDigit hdigit]
    rfl
  · rfl
  · rfl

/-- What is unmarked is read as decimal: the second character marks no base. -/
theorem cutBase_eq (h : LiteralAt sign base mark digits behind) :
    cutBase (mark ++ (digits ++ behind)) = (base, mark, digits ++ behind) := by
  cases h.marked with
  | decimal =>
    rw [List.nil_append]
    unfold cutBase
    split
    · rename_i letter rest htext
      have hletter : baseOfMark? letter = none := by
        match digits, h with
        | [], h => cases h.stop '0' (by rw [← List.nil_append behind, htext]; rfl)
        | [d], h =>
          obtain ⟨-, rfl⟩ := List.cons.inj htext
          exact baseOfMark?_eq_none (h.stop letter rfl)
        | d :: e :: ds, h =>
          cases htext
          cases hmark : baseOfMark? letter with
          | none => rfl
          | some base =>
            exact absurd ⟨ds, rfl⟩ (h.unmarked rfl base _ (baseMark_of_baseOfMark? hmark) (by simp))
      rw [hletter, htext]
    · rfl
  | hexadecimal => rfl
  | octal => rfl
  | binary => rfl

theorem begins (h : LiteralAt sign base mark digits behind)
    (ht : sign ++ (mark ++ (digits ++ behind)) = c :: cs) : (isSign c || c.isDigit) = true := by
  have hs := h.signed
  simp only [List.mem_cons, List.not_mem_nil, or_false] at hs
  rcases hs with rfl | rfl | rfl
  · obtain ⟨d, rest, htext, hdigit⟩ := h.exists_digit
    rw [List.nil_append, htext] at ht
    cases ht
    simp [hdigit]
  · cases ht
    rfl
  · cases ht
    rfl

/-- A literal is read in its parts. -/
theorem cut_eq (h : LiteralAt sign base mark digits behind)
    (ht : sign ++ (mark ++ (digits ++ behind)) = c :: cs) :
    cut c cs = ⟨literal sign base digits, sign ++ (mark ++ digits), behind⟩ := by
  rw [cut_of_literal (h.begins ht), ← ht]
  simp only [cutLiteral, h.cutSign_eq, h.cutBase_eq, takeWhile_of_stopsAt h.run h.stop,
    dropWhile_of_stopsAt h.run h.stop, List.append_assoc]

end LiteralAt

theorem natAbs_literalValue (sign : List Char) (base : Nat) (digits : List Char) :
    (literalValue sign base digits).natAbs = Text.ofDigits base digits := by
  rw [literalValue]
  split
  · rw [Int.natAbs_neg, Int.natAbs_natCast]
  · rw [Int.natAbs_natCast]

theorem literal_of_digits {sign digits : List Char} {base : Nat} (hn : digits ≠ [])
    (digit : ∀ d ∈ digits, Text.isDigitOf base d = true) (readable : Readable base digits) :
    literal sign base digits =
      if lowestLiteral ≤ literalValue sign base digits ∧
          literalValue sign base digits ≤ highestLiteral then
        .ok (.token (.integer (literalValue sign base digits % 2 ^ 32).toNat))
      else .error (.ofValue (literalValue sign base digits)) := by
  rw [literal, if_neg hn, if_pos (List.all_eq_true.2 digit), if_neg (readable_iff.1 readable)]

theorem cut_of_construct (h : Construct behind piece text) (ht : text ++ behind = c :: cs) :
    cut c cs = ⟨.ok piece, text, behind⟩ := by
  cases h with
  | blank h =>
    cases ht
    rw [cut, if_pos (by simpa [isSpace, or_assoc] using h)]
    rfl
  | lineComment h stop =>
    rename_i inner
    cases ht
    have hcut : cut '@' (inner ++ behind) = ⟨.ok .comment,
      '@' :: (inner ++ behind).takeWhile (· ≠ '\n'), (inner ++ behind).dropWhile (· ≠ '\n')⟩ := rfl
    have hinner : ∀ d ∈ inner, decide (d ≠ '\n') = true := fun d hd => by
      rw [decide_eq_true_eq]
      rintro rfl
      exact h hd
    have hstop : StopsAt (fun d => decide (d ≠ '\n')) behind := by
      intro d hd
      rcases stop with rfl | stop
      · cases hd
      · cases hd.symm.trans stop
        rfl
    refine hcut.trans ?_
    rw [takeWhile_of_stopsAt hinner hstop, dropWhile_of_stopsAt hinner hstop]
  | blockComment h =>
    rename_i inner
    cases ht
    have hclose : closeComment (inner ++ ['*', '/'] ++ behind) =
      some (inner ++ ['*', '/'], behind) := closeComment_eq_some_iff.2 ⟨inner, rfl, rfl, h⟩
    have hcut : cut '/' ('*' :: (inner ++ ['*', '/'] ++ behind)) =
      cutComment (inner ++ ['*', '/'] ++ behind) := rfl
    refine hcut.trans ?_
    rw [cutComment, hclose]
  | lineEnd =>
    cases ht
    rfl
  | mark m =>
    cases ht
    cases m <;> rfl
  | name first inner stop =>
    rename_i ds
    cases ht
    have hcut : cut c (ds ++ behind) = cutName c (ds ++ behind) := cut_of_startsName first
    refine hcut.trans ?_
    rw [cutName, takeWhile_of_stopsAt inner stop, dropWhile_of_stopsAt inner stop]
  | literal hs hb hn digit readable low high stop =>
    rw [List.append_assoc, List.append_assoc] at ht
    rw [(LiteralAt.of_digits hs hb hn digit stop).cut_eq ht, literal_of_digits hn digit readable,
      if_pos ⟨low, high⟩]

end Cut

theorem text_ne_nil_of_construct {piece : Piece} {text behind : List Char}
    (h : Construct behind piece text) : text ≠ [] := by
  cases h with
  | literal hs hb hn =>
    intro he
    exact hn (List.append_eq_nil_iff.1 (List.append_eq_nil_iff.1 he).2).2
  | _ => simp

end Lexeme

open Lexeme

inductive Segmentation : List Char → List Segment → Prop
  | nil : Segmentation [] []
  | cons {s : Segment} {behind : List Char} {rest : List Segment}
      (head : Construct behind s.piece s.text) (tail : Segmentation behind rest) :
      Segmentation (s.text ++ behind) (s :: rest)

namespace Segment
variable {text : List Char} {segments : List Segment}

private theorem segmentation_of_all (text : List Char) (h : (all text).2 = none) :
    Segmentation text (all text).1 := by
  fun_induction all text with
  | case1 => exact .nil
  | case2 c cs fault hf => cases h
  | case3 c cs piece hf behind ih =>
    have hs := Segmentation.cons (s := ⟨piece, (cut c cs).text⟩) (construct_of_cut hf) (ih h)
    rw [cut_append] at hs
    exact hs

theorem all_of_segmentation (h : Segmentation text segments) : all text = (segments, none) := by
  induction h with
  | nil => rw [all]
  | cons head tail ih =>
    rename_i s behind rest
    obtain ⟨c, cs, ht⟩ : ∃ c cs, s.text ++ behind = c :: cs := by
      obtain ⟨c, cs, ht⟩ := List.exists_cons_of_ne_nil (text_ne_nil_of_construct head)
      exact ⟨c, cs ++ behind, by rw [ht]; rfl⟩
    have hcut := cut_of_construct head ht
    rw [ht, all]
    split
    · rename_i hf
      rw [hcut] at hf
      cases hf
    · rename_i hf
      rw [hcut] at hf
      cases hf
      simp only [hcut, ih]

theorem all_eq_iff : all text = (segments, none) ↔ Segmentation text segments := by
  refine ⟨fun h => ?_, all_of_segmentation⟩
  have hs := segmentation_of_all text (by rw [h])
  rw [h] at hs
  exact hs

end Segment

theorem Segmentation.joined {text : List Char} {segments : List Segment}
    (h : Segmentation text segments) : Segment.joined segments = text := by
  induction h with
  | nil => rfl
  | cons head tail ih =>
    rw [Segment.joined, List.flatMap_cons]
    exact congrArg _ ih

end MiniRisc
