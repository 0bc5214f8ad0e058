import MiniRisc.Proofs.Instruction.Decoded
import MiniRisc.Proofs.Text.Digits
/-! Which words decode, and the word of what one decodes to: the same word of 32 bits, but for the
low bits that no field of its form uses. -/
namespace MiniRisc

theorem Modifier.number_of_ofNumber? {n : Nat} {m : Modifier} (h : Modifier.ofNumber? n = some m) :
    m.number = n := by
  unfold Modifier.ofNumber? at h
  split at h <;> cases h <;> rfl

theorem Modifier.ofNumber?_eq_none_iff {n : Nat} : Modifier.ofNumber? n = none ↔ 3 ≤ n := by
  constructor
  · intro h
    match n with
    | 0 | 1 | 2 => cases h
    | n + 3 => omega
  · intro h
    match n with
    | 0 | 1 | 2 => omega
    | n + 3 => rfl

namespace Code

/-- The words that do not decode: there is no operation of the number, or no modifier where an
immediate follows. -/
def Refused (word : Int) : Prop :=
  21 < field word 27 5 ∨
    ∃ op, Opcode.ofNumber? (field word 27 5) = some op ∧ op.shape ≠ .branch ∧ op.shape ≠ .bare ∧
      field word 26 1 = 1 ∧ field word 16 2 = 3

/-- How many of the low bits of a word no field of its form uses. -/
def unusedBits (word : Int) : Nat :=
  match Opcode.ofNumber? (field word 27 5) with
  | none => 0
  | some op =>
    match op.shape with
    | .branch => 0
    | .bare => 27
    | .three | .two | .address => if field word 26 1 = 0 then 14 else 0

def canonical (word : Int) : Nat := low 32 word / 2 ^ unusedBits word * 2 ^ unusedBits word

section Fields

/-- A field is read off the 32 bits of a word. -/
theorem field_eq (word : Int) (position width : Nat) (h : position + width ≤ 32) :
    field word position width = low 32 word / 2 ^ position % 2 ^ width := by
  obtain ⟨k, hk⟩ : ∃ k, 32 = position + (width + k) := ⟨32 - position - width, by omega⟩
  have hpow : (2 : Int) ^ 32 = 2 ^ position * (2 ^ width * 2 ^ k) := by
    rw [← Int.pow_add, ← Int.pow_add, ← hk]
  have hword : word % 2 ^ 32 + 2 ^ position * (2 ^ width * (2 ^ k * (word / 2 ^ 32))) = word := by
    rw [← Int.mul_assoc (2 ^ width), ← Int.mul_assoc (2 ^ position), ← hpow, Int.emod_add_mul_ediv]
  have hpos : (2 : Int) ^ position ≠ 0 := Int.ne_of_gt (Int.pow_pos (by decide))
  have hfield : word / 2 ^ position % 2 ^ width = word % 2 ^ 32 / 2 ^ position % 2 ^ width := by
    conv =>
      lhs
      rw [← hword, Int.add_mul_ediv_left _ _ hpos, Int.add_mul_emod_self_left]
  have hlow : word % 2 ^ 32 = (low 32 word : Int) :=
    (Int.toNat_of_nonneg (Int.emod_nonneg _ (by decide))).symm
  rw [← field_natCast, field, field, low, low, hfield, hlow]

theorem testBit_canonical (word : Int) (k : Nat) : (canonical word).testBit k =
    (decide (unusedBits word ≤ k) && (low 32 word).testBit k) := by
  rw [canonical, Nat.testBit_mul_two_pow, Nat.testBit_div_two_pow]
  by_cases h : unusedBits word ≤ k
  · rw [Nat.sub_add_cancel h]
  · simp [h]

theorem canonical_lt (word : Int) : canonical word < 2 ^ 32 :=
  Nat.lt_of_le_of_lt (Nat.div_mul_le_self ..) (low_lt 32 word)

private theorem low_canonical (word : Int) : low 32 (canonical word) = canonical word :=
  low_natCast (canonical_lt word)

/-- Clearing the unused bits leaves the fields above them. -/
theorem field_canonical (word : Int) (position width : Nat) (h : position + width ≤ 32)
    (unused : unusedBits word ≤ position) :
    field (canonical word) position width = field word position width := by
  rw [field_eq _ position width h, field_eq _ position width h, low_canonical]
  apply Nat.eq_of_testBit_eq
  intro k
  rw [Nat.testBit_mod_two_pow, Nat.testBit_mod_two_pow, Nat.testBit_div_two_pow,
    Nat.testBit_div_two_pow, testBit_canonical,
    decide_eq_true (Nat.le_trans unused (Nat.le_add_left position k)), Bool.true_and]

end Fields

section Forms
variable {word index : Int} {op : Opcode}

private theorem unusedBits_of_branch (hop : Opcode.ofNumber? (field word 27 5) = some op)
    (shape : op.shape = .branch) : unusedBits word = 0 := by
  simp only [unusedBits, hop, shape]

private theorem unusedBits_of_bare (hop : Opcode.ofNumber? (field word 27 5) = some op)
    (shape : op.shape = .bare) : unusedBits word = 27 := by
  simp only [unusedBits, hop, shape]

private theorem unusedBits_of_registers (hop : Opcode.ofNumber? (field word 27 5) = some op)
    (hbranch : op.shape ≠ .branch) (hbare : op.shape ≠ .bare) :
    unusedBits word = if field word 26 1 = 0 then 14 else 0 := by
  simp only [unusedBits, hop]
  cases hshape : op.shape with
  | branch => exact absurd hshape hbranch
  | bare => exact absurd hshape hbare
  | three | two | address => rfl

/-- A word has no operation, or one of four forms. -/
theorem form_cases (word : Int) : Opcode.ofNumber? (field word 27 5) = none ∨
    ∃ op, Opcode.ofNumber? (field word 27 5) = some op ∧
      (op.shape = .branch ∨ op.shape = .bare ∨
        op.shape ≠ .branch ∧ op.shape ≠ .bare ∧ (field word 26 1 = 0 ∨ field word 26 1 = 1)) := by
  cases hop : Opcode.ofNumber? (field word 27 5) with
  | none => exact .inl rfl
  | some op =>
    have hbit : field word 26 1 < 2 ^ 1 := low_lt 1 _
    refine .inr ⟨op, rfl, ?_⟩
    by_cases hbranch : op.shape = .branch
    · exact .inl hbranch
    by_cases hbare : op.shape = .bare
    · exact .inr (.inl hbare)
    · exact .inr (.inr ⟨hbranch, hbare, by omega⟩)

private theorem unusedBits_le (word : Int) : unusedBits word ≤ 27 := by
  rcases form_cases word with hop | ⟨op, hop, shape | shape | ⟨hbranch, hbare, -⟩⟩
  · simp [unusedBits, hop]
  · simp [unusedBits_of_branch hop shape]
  · simp [unusedBits_of_bare hop shape]
  · rw [unusedBits_of_registers hop hbranch hbare]
    split <;> decide

private theorem field_opcode_canonical (word : Int) :
    field (canonical word) 27 5 = field word 27 5 :=
  field_canonical word 27 5 (by decide) (unusedBits_le word)

/-- Where nothing is unused, the word of 32 bits is canonical. -/
theorem canonical_of_unusedBits (h : unusedBits word = 0) : canonical word = low 32 word := by
  rw [canonical, h, Nat.pow_zero, Nat.div_one, Nat.mul_one]

/-- The canonical word is of the same form. -/
theorem unusedBits_canonical (word : Int) : unusedBits (canonical word) = unusedBits word := by
  have hfield := field_opcode_canonical word
  rcases form_cases word with hop | ⟨op, hop, shape | shape | ⟨hbranch, hbare, -⟩⟩
  · simp only [unusedBits, hfield, hop]
  · rw [unusedBits_of_branch hop shape, unusedBits_of_branch (hfield ▸ hop) shape]
  · rw [unusedBits_of_bare hop shape, unusedBits_of_bare (hfield ▸ hop) shape]
  · have hunused := unusedBits_of_registers hop hbranch hbare
    have hbit : field (canonical word) 26 1 = field word 26 1 := by
      apply field_canonical word 26 1 (by decide)
      rw [hunused]
      split <;> decide
    rw [hunused, unusedBits_of_registers (hfield ▸ hop) hbranch hbare, hbit]

/-- Clearing the unused bits again changes nothing more. -/
theorem canonical_canonical (word : Int) : canonical (canonical word) = canonical word := by
  have hdiv := Nat.mul_div_cancel (low 32 word / 2 ^ unusedBits word)
    (Nat.two_pow_pos (unusedBits word))
  rw [canonical, unusedBits_canonical, low_canonical]
  conv =>
    lhs
    rw [canonical, hdiv]
  rfl

end Forms

section Words
variable {word index : Int} {op : Opcode}

private theorem not_refused (hop : Opcode.ofNumber? (field word 27 5) = some op)
    (h : op.shape ≠ .branch → op.shape ≠ .bare → field word 26 1 = 1 → field word 16 2 ≠ 3) :
    ¬ Refused word := by
  rintro (large | ⟨other, hother, hbranch, hbare, set, three⟩)
  · have hnone := Opcode.ofNumber?_eq_none_iff.2 (show 22 ≤ field word 27 5 from large)
    cases hop.symm.trans hnone
  · obtain rfl := Option.some.inj (hop.symm.trans hother)
    exact h hbranch hbare set three

private theorem low_field (word : Int) (position width : Nat) :
    low width (field word position width : Int) = field word position width :=
  low_natCast (low_lt width _)

/-- The low bits of a word are those of its 32 bits. -/
theorem low_eq (word : Int) (width : Nat) (h : width ≤ 32) :
    low width word = low 32 word % 2 ^ width := by
  have hfield := field_eq word 0 width (by omega)
  rwa [Nat.pow_zero, Nat.div_one, field, Int.pow_zero, Int.ediv_one] at hfield

private theorem register_recode (hop : Opcode.ofNumber? (field word 27 5) = some op)
    (hbranch : op.shape ≠ .branch) (hbare : op.shape ≠ .bare) (clear : field word 26 1 = 0) :
    ∃ o, decode word index = .ok o ∧ encode o index = .ok (canonical word) := by
  have hnumber := Opcode.number_of_ofNumber? hop
  have hlt := low_lt 32 word
  refine ⟨_, (decode_registers hbranch hbare hop).trans (if_pos clear), ?_⟩
  rw [encode_registers hbranch hbare rfl, canonical, unusedBits_of_registers hop hbranch hbare,
    if_pos clear]
  simp only [low_field]
  simp only [field_eq word 26 1 (by decide)] at clear
  simp only [field_eq word 27 5 (by decide)] at hnumber
  simp only [hnumber, field_eq word 22 4 (by decide),
    field_eq word 18 4 (by decide),
    field_eq word 14 4 (by decide)]
  apply congrArg Except.ok
  omega

private theorem immediate_recode (hop : Opcode.ofNumber? (field word 27 5) = some op)
    (hbranch : op.shape ≠ .branch) (hbare : op.shape ≠ .bare) (set : field word 26 1 = 1)
    {modifier : Modifier} (hmodifier : Modifier.ofNumber? (field word 16 2) = some modifier) :
    ∃ o, decode word index = .ok o ∧ encode o index = .ok (canonical word) := by
  have hnumber := Opcode.number_of_ofNumber? hop
  have hm := Modifier.number_of_ofNumber? hmodifier
  have hlt := low_lt 32 word
  have hset : ¬ field word 26 1 = 0 := by omega
  have hunused := unusedBits_of_registers hop hbranch hbare
  rw [if_neg hset] at hunused
  have hdecode : decode word index = _ := decode_registers hbranch hbare hop
  rw [if_neg hset] at hdecode
  simp only [hmodifier] at hdecode
  refine ⟨_, hdecode, ?_⟩
  rw [encode_registers hbranch hbare rfl, canonical_of_unusedBits hunused]
  have himm : low 16 (low 16 word : Int) = low 16 word := low_natCast (low_lt 16 word)
  simp only [low_field, himm]
  simp only [field_eq word 26 1 (by decide)] at set
  simp only [field_eq word 27 5 (by decide)] at hnumber
  simp only [field_eq word 16 2 (by decide)] at hm
  simp only [hnumber, hm, field_eq word 22 4 (by decide),
    field_eq word 18 4 (by decide), low_eq word 16 (by decide)]
  apply congrArg Except.ok
  omega

private theorem branch_recode (hop : Opcode.ofNumber? (field word 27 5) = some op)
    (shape : op.shape = .branch) :
    ∃ o, decode word index = .ok o ∧ encode o index = .ok (canonical word) := by
  have hnumber := Opcode.number_of_ofNumber? hop
  have hlt := low_lt 32 word
  have lower := @Int.le_bmod word (2 ^ 27) (by decide)
  have upper := @Int.bmod_lt word (2 ^ 27) (by decide)
  have hdistance : index + word.bmod (2 ^ 27) - index = word.bmod (2 ^ 27) := by omega
  have hreach : reaches (word.bmod (2 ^ 27)) := reaches_iff.2 ⟨by omega, by omega⟩
  have hlow : low 27 (word.bmod (2 ^ 27)) = low 32 word % 2 ^ 27 := by
    have hmod : word.bmod (2 ^ 27) % 2 ^ 27 = word % 2 ^ 27 := Int.bmod_emod
    rw [← low_eq word 27 (by decide), low, low, hmod]
  refine ⟨_, decode_branch shape hop, ?_⟩
  simp only [encode, shape, hdistance, hreach, ↓reduceIte]
  rw [canonical_of_unusedBits (unusedBits_of_branch hop shape), hlow]
  simp only [field_eq word 27 5 (by decide)] at hnumber
  apply congrArg Except.ok
  omega

private theorem bare_recode (hop : Opcode.ofNumber? (field word 27 5) = some op)
    (shape : op.shape = .bare) :
    ∃ o, decode word index = .ok o ∧ encode o index = .ok (canonical word) := by
  have hnumber := Opcode.number_of_ofNumber? hop
  have hlt := low_lt 32 word
  refine ⟨_, decode_bare shape hop, ?_⟩
  simp only [encode, shape]
  rw [canonical, unusedBits_of_bare hop shape]
  simp only [field_eq word 27 5 (by decide)] at hnumber
  apply congrArg Except.ok
  omega

/-- Decoding does not look at the unused bits. -/
theorem decode_canonical (word index : Int) :
    decode (canonical word) index = decode word index := by
  have hfield := field_opcode_canonical word
  rcases form_cases word with hop | ⟨op, hop, shape | shape | ⟨hbranch, hbare, hbit⟩⟩
  · simp only [decode, hfield, hop]
  · have hlow : (low 32 word : Int) % (2 ^ 27 : Nat) = word % (2 ^ 27 : Nat) := by
      unfold low
      omega
    rw [decode_branch shape hop, decode_branch shape (hfield ▸ hop),
      canonical_of_unusedBits (unusedBits_of_branch hop shape), ← Int.emod_bmod, hlow,
      Int.emod_bmod]
  · rw [decode_bare shape hop, decode_bare shape (hfield ▸ hop)]
  · have hunused := unusedBits_of_registers hop hbranch hbare
    have hle : unusedBits word ≤ 14 := by
      rw [hunused]
      split <;> decide
    rw [decode_registers hbranch hbare hop, decode_registers hbranch hbare (hfield ▸ hop),
      field_canonical word 26 1 (by decide) (by omega),
      field_canonical word 22 4 (by decide) (by omega),
      field_canonical word 18 4 (by decide) (by omega),
      field_canonical word 14 4 (by decide) hle]
    split
    · rfl
    · rename_i hset
      rw [if_neg hset] at hunused
      rw [field_canonical word 16 2 (by decide) (by omega), low_eq _ 16 (by decide), low_canonical,
        canonical_of_unusedBits hunused, ← low_eq word 16 (by decide)]

/-- The words of a fault of a word have its index in them, which must be writable. -/
theorem raised_cases {fault : CodeFault}
    (h : fault = .unknownOpcode index (field word 27 5) ∨ fault = .invalidModifier index) :
    (index.natAbs < 10 ^ Text.digitLimit ∧ fault.raised = fault) ∨
      (10 ^ Text.digitLimit ≤ index.natAbs ∧ fault.raised = .numeral .writing) := by
  have hraised : fault.raised = if Text.isWritable index then fault else .numeral .writing := by
    rcases h with rfl | rfl <;> rfl
  rw [hraised]
  by_cases hw : Text.isWritable index = true
  · exact .inl ⟨Text.isWritable_iff.1 hw, if_pos hw⟩
  · exact .inr ⟨Nat.not_lt.1 fun short => hw (Text.isWritable_iff.2 short), if_neg hw⟩

/-- A word is refused, or it decodes to an operation whose word is the canonical one. -/
theorem decode_cases (word index : Int) :
    (Refused word ∧ ∃ fault, decode word index = .error (CodeFault.raised fault) ∧
      (fault = .unknownOpcode index (field word 27 5) ∨ fault = .invalidModifier index)) ∨
    ¬ Refused word ∧
      ∃ o, decode word index = .ok o ∧ encode o index = .ok (canonical word) := by
  rcases form_cases word with hop | ⟨op, hop, shape | shape | ⟨hbranch, hbare, hbit⟩⟩
  · have hlarge : 21 < field word 27 5 := by
      have := Opcode.ofNumber?_eq_none_iff.1 hop
      omega
    exact .inl ⟨.inl hlarge, _, by simp only [decode, hop], .inl rfl⟩
  · refine .inr ⟨not_refused hop fun hbranch => absurd shape hbranch, branch_recode hop shape⟩
  · refine .inr ⟨not_refused hop fun _ hbare => absurd shape hbare, bare_recode hop shape⟩
  · rcases hbit with hbit | hbit
    · exact .inr ⟨not_refused hop fun _ _ set => absurd set (by omega),
        register_recode hop hbranch hbare hbit⟩
    · cases hmodifier : Modifier.ofNumber? (field word 16 2) with
      | none =>
        have hset : ¬ field word 26 1 = 0 := by omega
        have hthree := Modifier.ofNumber?_eq_none_iff.1 hmodifier
        have hlt : field word 16 2 < 2 ^ 2 := low_lt 2 _
        refine .inl ⟨.inr ⟨op, hop, hbranch, hbare, hbit, by omega⟩, _, ?_, .inr rfl⟩
        rw [decode_registers hbranch hbare hop, if_neg hset]
        simp only [hmodifier]
      | some modifier =>
        refine .inr ⟨not_refused hop fun _ _ _ three => ?_,
          immediate_recode hop hbranch hbare hbit hmodifier⟩
        rw [three] at hmodifier
        cases hmodifier

end Words
end Code
end MiniRisc
