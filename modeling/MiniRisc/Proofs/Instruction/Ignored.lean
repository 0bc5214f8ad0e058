import MiniRisc.Proofs.Instruction.Decoded
/-! Bits of a word that executing it ignores. Some are in no field of the word's form, others in a
field that the operation has no use for, so that words of different operations may be of one
action. -/
namespace MiniRisc

/-- A comparison has no use for the target, a move and a complement have none for the first source,
and an operation with a displacement has none for a second source. -/
theorem Action.ofOpcode?_congr {op : Opcode} {rd rd' rs1 rs1' : Register}
    {source source' : Option Source} (imm : Option Int) (target : op ≠ .cmp → rd' = rd)
    (first : op ≠ .mov → op ≠ .not → rs1' = rs1)
    (second : op.shape ≠ .address → source' = source) :
    ofOpcode? rd' rs1' source' imm op = ofOpcode? rd rs1 source imm op := by
  cases op with
  | cmp => rw [first (by decide) (by decide), second (by decide), ofOpcode?, ofOpcode?]
  | not | mov => rw [target (by decide), second (by decide), ofOpcode?, ofOpcode?]
  | ld | st => rw [target (by decide), first (by decide) (by decide), ofOpcode?, ofOpcode?]
  | _ => rw [target (by decide), first (by decide) (by decide), second (by decide)]

namespace Code

/-- Whether executing a word ignores one of its bits: all below the opcode in a bare instruction,
and in the others but branches those behind the second register, the target of a comparison, the
first source of a move or a complement, and the modifier of a displacement. -/
def ignores (word k : Nat) : Bool :=
  match Opcode.ofNumber? (field word 27 5) with
  | none => false
  | some op =>
    match op.shape with
    | .bare => k < 27
    | .branch => false
    | .three | .two | .address =>
      (field word 26 1 = 0 && k < 14) ||
      (op = .cmp && 22 ≤ k && k < 26) ||
      ((op = .mov || op = .not) && 18 ≤ k && k < 22) ||
      (field word 26 1 ≠ 0 && op.shape = .address && 16 ≤ k && k < 18)

/-- Words of 32 bits that differ at most in bits that are ignored. -/
def Agree (word other : Nat) : Prop :=
  ∀ k < 32, ignores word k = false → word.testBit k = other.testBit k

instance (word other : Nat) : Decidable (Agree word other) :=
  inferInstanceAs (Decidable (∀ k < 32, _ → _))

def registerAt (word : Int) (position : Nat) : Register := ⟨field word position 4, low_lt 4 _⟩

section Fields
variable {word other : Nat}

private theorem testBit_field (word position width k : Nat) :
    (field (word : Int) position width).testBit k =
      (decide (k < width) && word.testBit (k + position)) := by
  rw [field_natCast, Nat.testBit_mod_two_pow, Nat.testBit_div_two_pow]

/-- A field without ignored bits is the same in words that agree. -/
theorem Agree.same_field (h : Agree word other) (position width : Nat)
    (inside : position + width ≤ 32)
    (used : ∀ k, position ≤ k → k < position + width → ignores word k = false) :
    field (other : Int) position width = field (word : Int) position width := by
  apply Nat.eq_of_testBit_eq
  intro k
  rw [testBit_field, testBit_field]
  by_cases hk : k < width
  · rw [h (k + position) (by omega) (used (k + position) (by omega) (by omega))]
  · rw [decide_eq_false hk, Bool.false_and, Bool.false_and]

end Fields

section Forms
variable {word other k : Nat} {op : Opcode}

private theorem ignores_of_branch (hop : Opcode.ofNumber? (field word 27 5) = some op)
    (shape : op.shape = .branch) : ignores word k = false := by
  simp only [ignores, hop, shape]

private theorem ignores_of_registers (hop : Opcode.ofNumber? (field word 27 5) = some op)
    (hbranch : op.shape ≠ .branch) (hbare : op.shape ≠ .bare) : ignores word k = true ↔
      (field word 26 1 = 0 ∧ k < 14) ∨ (op = .cmp ∧ 22 ≤ k ∧ k < 26) ∨
      ((op = .mov ∨ op = .not) ∧ 18 ≤ k ∧ k < 22) ∨
      (field word 26 1 ≠ 0 ∧ op.shape = .address ∧ 16 ≤ k ∧ k < 18) := by
  simp only [ignores, hop]
  cases hshape : op.shape with
  | branch => exact absurd hshape hbranch
  | bare => exact absurd hshape hbare
  | three | two | address => simp [or_assoc, and_assoc]

/-- No bit of the opcode is ignored. -/
theorem ignores_opcode (hk : 27 ≤ k) : ignores word k = false := by
  unfold ignores
  split
  · rfl
  · split <;> simp <;> omega

private theorem Agree.same_opcode (h : Agree word other) :
    field (other : Int) 27 5 = field (word : Int) 27 5 :=
  h.same_field 27 5 (by decide) fun _ hk _ => ignores_opcode hk

end Forms

section Operations
variable {word other : Nat} {op : Opcode} {index : Int} {o o' : Operation}

private theorem action?_of_fields (rd rs1 : Register) (hrd : o.rd = rd.val)
    (hrs1 : o.rs1 = rs1.val) : o.action? = Action.ofOpcode? rd rs1 o.source? o.imm o.op := by
  rw [Operation.action?, hrd, hrs1, Register.ofNumber?_val, Register.ofNumber?_val]
  rfl

/-- The distance of a branch is in its low bits. -/
theorem bmod_eq_field (word : Nat) :
    (word : Int).bmod (2 ^ 27) = (field (word : Int) 0 27 : Int).bmod (2 ^ 27) := by
  rw [field_natCast, Nat.pow_zero, Nat.div_one, Int.natCast_emod, Int.emod_bmod]

section Registers
variable (h : Agree word other) (hop : Opcode.ofNumber? (field word 27 5) = some op)
  (hbranch : op.shape ≠ .branch) (hbare : op.shape ≠ .bare)
include h hop hbranch hbare

/-- A field in which no bit is ignored, by the conditions on a form with registers. -/
private theorem same_used (position width : Nat) (inside : position + width ≤ 32)
    (used : ∀ k, position ≤ k → k < position + width →
      ¬ ((field word 26 1 = 0 ∧ k < 14) ∨ (op = .cmp ∧ 22 ≤ k ∧ k < 26) ∨
        ((op = .mov ∨ op = .not) ∧ 18 ≤ k ∧ k < 22) ∨
        (field word 26 1 ≠ 0 ∧ op.shape = .address ∧ 16 ≤ k ∧ k < 18))) :
    field (other : Int) position width = field (word : Int) position width :=
  h.same_field position width inside fun k hlow hhigh => by
    rw [Bool.eq_false_iff, ne_eq, ignores_of_registers hop hbranch hbare]
    exact used k hlow hhigh

private theorem Agree.same_form : field (other : Int) 26 1 = field (word : Int) 26 1 :=
  same_used h hop hbranch hbare 26 1 (by decide) fun k hlow hhigh => by omega

private theorem Agree.same_target (hcmp : op ≠ .cmp) : registerAt other 22 = registerAt word 22 :=
  Fin.ext <| same_used h hop hbranch hbare 22 4 (by decide) fun k hlow hhigh => by
    simp only [hcmp, false_and, false_or]
    omega

private theorem Agree.same_first (hmov : op ≠ .mov) (hnot : op ≠ .not) :
    registerAt other 18 = registerAt word 18 :=
  Fin.ext <| same_used h hop hbranch hbare 18 4 (by decide) fun k hlow hhigh => by
    simp only [hmov, hnot, or_self, false_and, false_or]
    omega

/-- With a register as the second source. -/
theorem Agree.action_of_clear (clear : field word 26 1 = 0) (ho : decode word index = .ok o)
    (ho' : decode other index = .ok o') : o'.op = o.op ∧ o'.action? = o.action? := by
  rw [decode_registers hbranch hbare hop, if_pos clear] at ho
  rw [decode_registers hbranch hbare (h.same_opcode ▸ hop),
    if_pos ((h.same_form hop hbranch hbare).trans clear)] at ho'
  have hsecond : field (other : Int) 14 4 = field (word : Int) 14 4 :=
    same_used h hop hbranch hbare 14 4 (by decide) fun k hlow hhigh => by omega
  obtain rfl := Except.ok.inj ho
  obtain rfl := Except.ok.inj ho'
  refine ⟨rfl, ?_⟩
  rw [action?_of_fields (registerAt other 22) (registerAt other 18) rfl rfl,
    action?_of_fields (registerAt word 22) (registerAt word 18) rfl rfl, hsecond]
  exact Action.ofOpcode?_congr _ (h.same_target hop hbranch hbare)
    (h.same_first hop hbranch hbare) fun _ => rfl

/-- With an immediate behind the registers. -/
theorem Agree.action_of_set (set : field word 26 1 ≠ 0) (ho : decode word index = .ok o)
    (ho' : decode other index = .ok o') : o'.op = o.op ∧ o'.action? = o.action? := by
  have hform := h.same_form hop hbranch hbare
  rw [decode_registers hbranch hbare hop, if_neg set] at ho
  rw [decode_registers hbranch hbare (h.same_opcode ▸ hop), if_neg (hform ▸ set)] at ho'
  have himm : low 16 (other : Int) = low 16 (word : Int) := by
    have hlow := same_used h hop hbranch hbare 0 16 (by decide) fun k hlow hhigh => by omega
    simpa [field] using hlow
  have hmodifier (shape : op.shape ≠ .address) :
      field (other : Int) 16 2 = field (word : Int) 16 2 :=
    same_used h hop hbranch hbare 16 2 (by decide) fun k hlow hhigh => by
      simp only [shape, false_and, and_false, or_false]
      omega
  split at ho
  · cases ho
  · rename_i modifier hm
    split at ho'
    · cases ho'
    · rename_i modifier' hm'
      obtain rfl := Except.ok.inj ho
      obtain rfl := Except.ok.inj ho'
      refine ⟨rfl, ?_⟩
      rw [action?_of_fields (registerAt other 22) (registerAt other 18) rfl rfl,
        action?_of_fields (registerAt word 22) (registerAt word 18) rfl rfl, himm]
      refine Action.ofOpcode?_congr _ (h.same_target hop hbranch hbare)
        (h.same_first hop hbranch hbare) fun shape => ?_
      rw [hmodifier shape, hm] at hm'
      obtain rfl := Option.some.inj hm'
      rfl

end Registers

/-- Words that agree and decode are of the same operation and the same action. -/
theorem Agree.action (h : Agree word other) (ho : decode word index = .ok o)
    (ho' : decode other index = .ok o') : o'.op = o.op ∧ o'.action? = o.action? := by
  obtain ⟨op, hop⟩ : ∃ op, Opcode.ofNumber? (field word 27 5) = some op :=
    ⟨_, (decoded_of_decode ho).1⟩
  have hother : Opcode.ofNumber? (field other 27 5) = some op := h.same_opcode ▸ hop
  by_cases hbranch : op.shape = .branch
  · have hlow := h.same_field 0 27 (by decide) fun k _ _ => ignores_of_branch hop hbranch
    rw [decode_branch hbranch hop, bmod_eq_field, ← hlow, ← bmod_eq_field] at ho
    rw [decode_branch hbranch hother, ho] at ho'
    obtain rfl := Except.ok.inj ho'
    exact ⟨rfl, rfl⟩
  by_cases hbare : op.shape = .bare
  · rw [decode_bare hbare hop] at ho
    rw [decode_bare hbare hother, ho] at ho'
    obtain rfl := Except.ok.inj ho'
    exact ⟨rfl, rfl⟩
  by_cases form : field word 26 1 = 0
  · exact h.action_of_clear hop hbranch hbare form ho ho'
  · exact h.action_of_set hop hbranch hbare form ho ho'

end Operations

end Code
end MiniRisc
