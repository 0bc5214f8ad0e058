import MiniRisc.Text.Digits
/-! Numbers that are written in digits and read again. -/
namespace MiniRisc.Text
variable {base value : Nat}

private theorem digitValue_digitChar (h : value < 36) : digitValue (digitChar value) = value := by
  have table : ∀ v : Fin 36, digitValue (digitChar v) = v := by decide
  exact table ⟨value, h⟩

private theorem isAlphanum_digitChar (h : value < 36) : (digitChar value).isAlphanum = true := by
  have table : ∀ v : Fin 36, (digitChar v).isAlphanum = true := by decide
  exact table ⟨value, h⟩

private theorem isDigitOf_digitChar (hb : base ≤ 36) (h : value < base) :
    isDigitOf base (digitChar value) = true := by
  rw [isDigitOf, isAlphanum_digitChar (by omega), digitValue_digitChar (by omega)]
  simp [h]

theorem isDigitOf_of_mem_toDigits (hb : 2 ≤ base) (hb' : base ≤ 36) :
    ∀ c ∈ toDigits base value, isDigitOf base c = true := by
  fun_induction toDigits base value with
  | case1 value h ih =>
    intro c hc
    rcases List.mem_append.1 hc with hc | hc
    · exact ih c hc
    · cases List.mem_singleton.1 hc
      exact isDigitOf_digitChar hb' (Nat.mod_lt value (by omega))
  | case2 value h =>
    intro c hc
    cases List.mem_singleton.1 hc
    exact isDigitOf_digitChar hb' (by omega)

/-- The digits of a number denote it. -/
theorem ofDigits_toDigits (hb : 2 ≤ base) (hb' : base ≤ 36) :
    ofDigits base (toDigits base value) = value := by
  fun_induction toDigits base value with
  | case1 value h ih =>
    have hlast : value % base < base := Nat.mod_lt value (by omega)
    rw [ofDigits_append, ih, digitValue_digitChar (by omega), Nat.mul_comm]
    exact Nat.div_add_mod value base
  | case2 value h =>
    have hlow : value < 36 := by omega
    simpa [ofDigits] using digitValue_digitChar hlow

theorem length_toDigits_le {width : Nat} (hb : 2 ≤ base) (h : value < base ^ (width + 1)) :
    (toDigits base value).length ≤ width + 1 := by
  induction width generalizing value with
  | zero =>
    rw [toDigits_of_lt (by simpa using h)]
    exact Nat.le_refl _
  | succ width ih =>
    rcases Nat.lt_or_ge value base with hlow | hhigh
    · rw [toDigits_of_lt hlow, List.length_singleton]
      omega
    · have hfront := ih (Nat.div_lt_of_lt_mul (by rwa [Nat.mul_comm, ← Nat.pow_succ]))
      rw [toDigits_of_le hb hhigh, List.length_append, List.length_singleton]
      omega

/-- Digits of a base denote less than the power of it that their number is. -/
theorem ofDigits_lt {digits : List Char} (h : ∀ c ∈ digits, isDigitOf base c = true) :
    ofDigits base digits < base ^ digits.length := by
  -- A fold that begins at some value stays below the next value times the power.
  have hfold : ∀ start, digits.foldl (fun value c => value * base + digitValue c) start <
      (start + 1) * base ^ digits.length := by
    induction digits with
    | nil => intro start; simp
    | cons c rest ih =>
      intro start
      have hc := h c List.mem_cons_self
      rw [isDigitOf, Bool.and_eq_true, decide_eq_true_eq] at hc
      have hrest := ih (fun d hd => h d (List.mem_cons_of_mem c hd)) (start * base + digitValue c)
      have hnext : start * base + digitValue c + 1 ≤ (start + 1) * base := by
        rw [Nat.succ_mul]
        omega
      rw [List.foldl_cons, List.length_cons, Nat.pow_succ, Nat.mul_comm (base ^ _), ← Nat.mul_assoc]
      exact Nat.lt_of_lt_of_le hrest (Nat.mul_le_mul_right _ hnext)
  simpa [ofDigits] using hfold 0

section Writable
variable {number : Int}

private theorem fitsDigits_iff {limit : Nat} :
    fitsDigits limit value = true ↔ value < 10 ^ limit := by
  induction limit generalizing value with
  | zero => simp [fitsDigits]
  | succ limit ih =>
    have hpos : 0 < 10 ^ limit := Nat.pow_pos (by decide)
    rw [fitsDigits, Nat.pow_succ]
    split
    · rename_i hzero
      simp [hzero, hpos]
    · rw [ih]
      omega

theorem isWritable_iff : isWritable number = true ↔ number.natAbs < 10 ^ digitLimit :=
  fitsDigits_iff

private theorem isWritable_of_lt {width : Nat} (h : number.natAbs < 10 ^ width)
    (hw : width ≤ digitLimit) : isWritable number = true :=
  isWritable_iff.2 (Nat.lt_of_lt_of_le h (Nat.pow_le_pow_right (by decide) hw))

theorem not_isWritable_of_le {size : Nat} (h : 10 ^ digitLimit ≤ size) (hn : number.natAbs = size) :
    ¬ isWritable number = true := by
  rw [isWritable_iff, hn]
  exact Nat.not_lt.2 h

/-- Words have ten digits at most. -/
theorem isWritable_of_fits (lower : -2 ^ 31 ≤ number) (upper : number < 2 ^ 31) :
    isWritable number = true :=
  isWritable_of_lt (show number.natAbs < 10 ^ 10 by omega) (by decide)

end Writable

/-- Zeros in front of digits do not count. -/
theorem ofDigits_zeros (n : Nat) (digits : List Char) :
    ofDigits base (List.replicate n '0' ++ digits) = ofDigits base digits := by
  induction n with
  | zero => rfl
  | succ n ih =>
    rw [← ih, List.replicate_succ, List.cons_append, ofDigits, List.foldl_cons]
    simp [digitValue, ofDigits]

theorem mem_toDigits (hb : 2 ≤ base) : ∀ c ∈ toDigits base value, ∃ v < base, c = digitChar v := by
  fun_induction toDigits base value with
  | case1 value h ih =>
    intro c hc
    rcases List.mem_append.1 hc with hc | hc
    · exact ih c hc
    · exact ⟨value % base, Nat.mod_lt value (by omega), List.mem_singleton.1 hc⟩
  | case2 value h =>
    intro c hc
    exact ⟨value, by omega, List.mem_singleton.1 hc⟩

structure HexWord (word : Nat) (text : String) : Prop where
  length : text.length = 8
  digit : ∀ c ∈ text.toList, c ∈ "0123456789ABCDEF".toList
  value : ofDigits 16 text.toList = word

theorem hexWord_padLeft {word : Nat} (h : word < 2 ^ 32) :
    HexWord word (padLeft '0' 8 (hex word)) := by
  have hlength : (toDigits 16 word).length ≤ 8 := length_toDigits_le (by decide) h
  have htext : (padLeft '0' 8 (hex word)).toList =
      List.replicate (8 - (toDigits 16 word).length) '0' ++ toDigits 16 word := by
    simp [padLeft, hex]
  refine ⟨?_, fun c hc => ?_, ?_⟩
  · rw [← String.length_toList, htext, List.length_append, List.length_replicate]
    omega
  · rw [htext] at hc
    rcases List.mem_append.1 hc with hc | hc
    · rw [List.eq_of_mem_replicate hc]
      decide
    · obtain ⟨v, hv, rfl⟩ := mem_toDigits (by decide) c hc
      have table : ∀ v : Fin 16, digitChar v ∈ "0123456789ABCDEF".toList := by decide
      exact table ⟨v, hv⟩
  · rw [htext, ofDigits_zeros]
    exact ofDigits_toDigits (by decide) (by decide)

end MiniRisc.Text
