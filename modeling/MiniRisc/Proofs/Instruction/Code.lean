import MiniRisc.Instruction.Code
import MiniRisc.Proofs.Instruction.Form
/-! The word of an operation of the assembler's form decodes to the operation again. Only a branch
whose target is too far has no word. -/
namespace MiniRisc.Code

theorem low_natCast {width n : Nat} (h : n < 2 ^ width) : low width (n : Int) = n := by
  have hmod : (n : Int) % 2 ^ width = (n % 2 ^ width : Nat) := by simp
  rw [low, hmod, Int.toNat_natCast, Nat.mod_eq_of_lt h]

private theorem low_register (r : Register) : low 4 (r.val : Int) = r.val := low_natCast r.isLt

theorem field_natCast (word position width : Nat) :
    field (word : Int) position width = word / 2 ^ position % 2 ^ width := by
  have hdiv : (word : Int) / 2 ^ position = (word / 2 ^ position : Nat) := by simp
  have hmod : ((word / 2 ^ position : Nat) : Int) % 2 ^ width =
      (word / 2 ^ position % 2 ^ width : Nat) := by simp
  rw [field, low, hdiv, hmod, Int.toNat_natCast]

theorem reaches_iff {distance : Int} :
    reaches distance = true ↔ -2 ^ 26 ≤ distance ∧ distance < 2 ^ 26 := by
  simp [reaches]

/-- The opcode of a word is what stands above its other fields. -/
theorem opcode_field (op : Opcode) {rest : Nat} (h : rest < 2 ^ 27) :
    Opcode.ofNumber? (field ((op.number * 2 ^ 27 + rest : Nat) : Int) 27 5) = some op := by
  have hop := op.number_lt
  have : (op.number * 2 ^ 27 + rest) / 2 ^ 27 % 2 ^ 5 = op.number := by omega
  rw [field_natCast, this, Opcode.ofNumber?_number]

section Registers
variable {op : Opcode} (hbranch : op.shape ≠ .branch) (hbare : op.shape ≠ .bare)
include hbranch hbare

theorem encode_registers {o : Operation} (ho : o.op = op) (index : Int) :
    encode o index =
      let registers := op.number * 2 ^ 27 + low 4 o.rd * 2 ^ 22 + low 4 o.rs1 * 2 ^ 18
      match o.imm, o.rs2 with
      | some imm, _ => .ok (registers + 2 ^ 26 + o.modifier.number * 2 ^ 16 + low 16 imm)
      | none, some number => .ok (registers + low 4 number * 2 ^ 14)
      | none, none => .error .missingOperand := by
  subst ho
  rw [encode]
  split
  · exact absurd ‹_› hbranch
  · exact absurd ‹_› hbare
  all_goals rfl

theorem decode_registers {word index : Int}
    (hop : Opcode.ofNumber? (field word 27 5) = some op) :
    decode word index =
      if field word 26 1 = 0 then
        .ok { op, rd := field word 22 4, rs1 := field word 18 4, rs2 := some (field word 14 4) }
      else
        match Modifier.ofNumber? (field word 16 2) with
        | none => .error (CodeFault.invalidModifier index).raised
        | some modifier =>
          .ok { op, modifier, rd := field word 22 4, rs1 := field word 18 4,
                imm := some (low 16 word) } := by
  rw [decode]
  simp only [hop]
  split
  · exact absurd ‹_› hbranch
  · exact absurd ‹_› hbare
  all_goals rfl

/-- Registers keep their fields, and the bit for an immediate stays clear. -/
theorem register_word (rd rs1 rs2 : Register) (index : Int) :
    ∃ word, encode { op, rd := rd.val, rs1 := rs1.val, rs2 := some (rs2.val : Int) } index =
        .ok word ∧ word < 2 ^ 32 ∧
      decode word index =
        .ok { op, rd := rd.val, rs1 := rs1.val, rs2 := some (rs2.val : Int) } := by
  have hop := op.number_lt
  have := rd.isLt
  have := rs1.isLt
  have := rs2.isLt
  refine ⟨op.number * 2 ^ 27 + (rd.val * 2 ^ 22 + rs1.val * 2 ^ 18 + rs2.val * 2 ^ 14),
    ?_, by omega, ?_⟩
  · rw [encode_registers hbranch hbare rfl]
    simp only [low_register, Nat.add_assoc]
  · rw [decode_registers hbranch hbare (opcode_field op (by omega))]
    simp only [field_natCast]
    rw [if_pos (by omega)]
    congr <;> omega

/-- An immediate keeps its field and its modifier. -/
theorem immediate_word (modifier : Modifier) (rd rs1 : Register) {imm : Nat} (fits : imm < 2 ^ 16)
    (index : Int) :
    ∃ word, encode { op, modifier, rd := rd.val, rs1 := rs1.val, imm := some (imm : Int) } index =
        .ok word ∧ word < 2 ^ 32 ∧
      decode word index =
        .ok { op, modifier, rd := rd.val, rs1 := rs1.val, imm := some (imm : Int) } := by
  have hop := op.number_lt
  have := rd.isLt
  have := rs1.isLt
  have hm : modifier.number < 3 := by cases modifier <;> decide
  refine ⟨op.number * 2 ^ 27 + (rd.val * 2 ^ 22 + rs1.val * 2 ^ 18 + 2 ^ 26 +
    modifier.number * 2 ^ 16 + imm), ?_, by omega, ?_⟩
  · rw [encode_registers hbranch hbare rfl]
    simp only [low_register, low_natCast fits, Nat.add_assoc]
  · rw [decode_registers hbranch hbare (opcode_field op (by omega))]
    simp only [field_natCast, low]
    rw [if_neg (by omega)]
    have hmod : (op.number * 2 ^ 27 + (rd.val * 2 ^ 22 + rs1.val * 2 ^ 18 + 2 ^ 26 +
      modifier.number * 2 ^ 16 + imm)) / 2 ^ 16 % 2 ^ 2 = modifier.number := by omega
    simp only [hmod, Modifier.ofNumber?_number]
    congr <;> omega

end Registers

theorem decode_branch {op : Opcode} (shape : op.shape = .branch) {word index : Int}
    (hop : Opcode.ofNumber? (field word 27 5) = some op) :
    decode word index = .ok { op, imm := some (index + word.bmod (2 ^ 27)) } := by
  rw [decode]
  simp only [hop, shape]

theorem decode_bare {op : Opcode} (shape : op.shape = .bare) {word index : Int}
    (hop : Opcode.ofNumber? (field word 27 5) = some op) : decode word index = .ok { op } := by
  rw [decode]
  simp only [hop, shape]

/-- A target within reach is found again from the index of the branch. -/
theorem branch_word {op : Opcode} (shape : op.shape = .branch) {target index : Int}
    (h : reaches (target - index)) :
    ∃ word, encode { op, imm := some target } index = .ok word ∧ word < 2 ^ 32 ∧
      decode word index = .ok { op, imm := some target } := by
  have hop := op.number_lt
  have hlow := low_lt 27 (target - index)
  refine ⟨op.number * 2 ^ 27 + low 27 (target - index), ?_, by omega, ?_⟩
  · simp only [encode, shape, h, ↓reduceIte]
  · obtain ⟨lower, upper⟩ := reaches_iff.1 h
    have hword : (op.number * 2 ^ 27 + low 27 (target - index) : Nat) =
        (2 ^ 27 : Nat) * (op.number : Int) + (target - index) % (2 ^ 27 : Nat) := by
      rw [low]
      omega
    have hback : ((op.number * 2 ^ 27 + low 27 (target - index) : Nat) : Int).bmod (2 ^ 27) =
        target - index := by
      rw [hword, Int.mul_add_bmod_self_left, Int.emod_bmod]
      exact Int.bmod_eq_of_le_mul_two (by omega) (by omega)
    have htarget : index + (target - index) = target := by omega
    rw [decode_branch shape (opcode_field op hlow), hback, htarget]

/-- A target out of reach has no word. -/
theorem branch_too_far {op : Opcode} (shape : op.shape = .branch) {target index : Int}
    (h : ¬ reaches (target - index)) :
    encode { op, imm := some target } index = .error (.branchTooFar op (target - index)) := by
  simp only [encode, shape, h]
  rfl

private theorem bare_word {op : Opcode} (shape : op.shape = .bare) (index : Int) :
    ∃ word, encode { op } index = .ok word ∧ word < 2 ^ 32 ∧ decode word index = .ok { op } := by
  have hop := op.number_lt
  refine ⟨op.number * 2 ^ 27 + 0, ?_, by omega, ?_⟩
  · simp only [encode, shape, Nat.add_zero]
  · exact decode_bare shape (opcode_field op (Nat.two_pow_pos 27))

/-- Whether an operation at an index is a branch to a target out of reach. -/
def TooFar (o : Operation) (index : Nat) : Prop :=
  o.op.shape = .branch ∧ ∃ target, o.imm = some target ∧ ¬ reaches (target - index)

/-- An operation of the assembler's form has a word that decodes to it, or it is a branch out of
reach and has none. -/
theorem word_of_assembled {size : Nat} {o : Operation} (h : o.Assembled size) (index : Nat) :
    (¬ TooFar o index ∧
      ∃ word, encode o index = .ok word ∧ word < 2 ^ 32 ∧ decode word index = .ok o) ∨
    (TooFar o index ∧ ∃ distance, encode o index = .error (.branchTooFar o.op distance)) := by
  cases h with
  | register takes rd rs1 rs2 =>
    obtain ⟨-, hbranch, hbare⟩ := Opcode.shape_of_takesSource takes
    exact .inl ⟨fun far => hbranch far.1, register_word hbranch hbare rd rs1 rs2 index⟩
  | immediate takes modifier legal rd rs1 unused fits =>
    obtain ⟨-, hbranch, hbare⟩ := Opcode.shape_of_takesSource takes
    exact .inl ⟨fun far => hbranch far.1, immediate_word hbranch hbare modifier rd rs1 fits index⟩
  | @address op shape rd rs1 imm fits =>
    have hbranch : op.shape ≠ .branch := by simp [shape]
    have hbare : op.shape ≠ .bare := by simp [shape]
    exact .inl ⟨fun far => hbranch far.1, immediate_word hbranch hbare .signed rd rs1 fits index⟩
  | @branch op shape target inside =>
    by_cases hr : reaches (target - index)
    · refine .inl ⟨?_, branch_word shape hr⟩
      rintro ⟨-, t, ht, far⟩
      obtain rfl := Option.some.inj ht
      exact far hr
    · exact .inr ⟨⟨shape, _, rfl, hr⟩, _, branch_too_far shape hr⟩
  | bare shape =>
    refine .inl ⟨?_, bare_word shape index⟩
    rintro ⟨-, _, ht, -⟩
    cases ht

end MiniRisc.Code
