import MiniRisc.Proofs.Instruction.Action
import MiniRisc.Proofs.Instruction.Code
/-! What words decode to. Every decoded operation is an action, but for loads and stores in the
register form: these have no displacement. -/
namespace MiniRisc

namespace Operation

def LacksDisplacement (o : Operation) : Prop := o.op.shape = .address ∧ o.imm = none

/-- The operations that a word can decode to, by the form of the word. -/
inductive Decoded (word : Int) : Operation → Prop
  | register {op : Opcode} (hbranch : op.shape ≠ .branch) (hbare : op.shape ≠ .bare)
      (clear : Code.field word 26 1 = 0) (rd rs1 rs2 : Register) :
      Decoded word { op, rd := rd.val, rs1 := rs1.val, rs2 := some (rs2.val : Int) }
  | immediate {op : Opcode} (hbranch : op.shape ≠ .branch) (hbare : op.shape ≠ .bare)
      (set : Code.field word 26 1 ≠ 0) (modifier : Modifier) (rd rs1 : Register) (imm : Int) :
      Decoded word { op, modifier, rd := rd.val, rs1 := rs1.val, imm := some imm }
  | branch {op : Opcode} (shape : op.shape = .branch) (target : Int) :
      Decoded word { op, imm := some target }
  | bare {op : Opcode} (shape : op.shape = .bare) : Decoded word { op }

end Operation

namespace Code

def LacksDisplacement (word : Int) : Prop :=
  (field word 27 5 = Opcode.ld.number ∨ field word 27 5 = Opcode.st.number) ∧ field word 26 1 = 0

/-- Four bits name a register. -/
private theorem exists_register (word : Int) (position : Nat) :
    ∃ r : Register, (field word position 4 : Int) = r.val :=
  ⟨⟨field word position 4, low_lt 4 _⟩, rfl⟩

private theorem decoded_registers {op : Opcode} (hbranch : op.shape ≠ .branch)
    (hbare : op.shape ≠ .bare) {word index : Int} {o : Operation}
    (hop : Opcode.ofNumber? (field word 27 5) = some op) (h : decode word index = .ok o) :
    o.op = op ∧ o.Decoded word := by
  obtain ⟨rd, hrd⟩ := exists_register word 22
  obtain ⟨rs1, hrs1⟩ := exists_register word 18
  obtain ⟨rs2, hrs2⟩ := exists_register word 14
  rw [decode_registers hbranch hbare hop, hrd, hrs1, hrs2] at h
  split at h
  · cases h
    exact ⟨rfl, .register hbranch hbare ‹_› rd rs1 rs2⟩
  · split at h
    · cases h
    · cases h
      exact ⟨rfl, .immediate hbranch hbare ‹_› _ rd rs1 _⟩

/-- A word decodes to an operation of its opcode and its form. -/
theorem decoded_of_decode {word index : Int} {o : Operation} (h : decode word index = .ok o) :
    Opcode.ofNumber? (field word 27 5) = some o.op ∧ o.Decoded word := by
  cases hop : Opcode.ofNumber? (field word 27 5) with
  | none =>
    simp only [decode, hop] at h
    cases h
  | some op =>
    by_cases hbranch : op.shape = .branch
    · rw [decode_branch hbranch hop] at h
      cases h
      exact ⟨rfl, .branch hbranch _⟩
    by_cases hbare : op.shape = .bare
    · rw [decode_bare hbare hop] at h
      cases h
      exact ⟨rfl, .bare hbare⟩
    obtain ⟨rfl, hd⟩ := decoded_registers hbranch hbare hop h
    exact ⟨rfl, hd⟩

private theorem address_iff {n : Nat} {op : Opcode} (h : Opcode.ofNumber? n = some op) :
    op.shape = .address ↔ n = Opcode.ld.number ∨ n = Opcode.st.number := by
  obtain rfl := Opcode.number_of_ofNumber? h
  cases op <;> decide

theorem lacksDisplacement_iff {word index : Int} {o : Operation}
    (h : decode word index = .ok o) : o.LacksDisplacement ↔ LacksDisplacement word := by
  obtain ⟨hop, hd⟩ := decoded_of_decode h
  rw [LacksDisplacement, ← address_iff hop, Operation.LacksDisplacement]
  refine and_congr_right fun shape => ?_
  cases hd with
  | register hbranch hbare clear => simp [clear]
  | immediate hbranch hbare set => simp [set]
  | branch hs => simp [hs] at shape
  | bare hs => simp [hs] at shape

end Code

namespace Operation
variable {word : Int} {o : Operation}

theorem Decoded.registers (h : o.Decoded word) :
    ∃ rd rs1 : Register, o.rd = rd.val ∧ o.rs1 = rs1.val := by
  cases h with
  | register _ _ _ rd rs1 => exact ⟨rd, rs1, rfl, rfl⟩
  | immediate _ _ _ _ rd rs1 => exact ⟨rd, rs1, rfl, rfl⟩
  | branch | bare => exact ⟨0, 0, rfl, rfl⟩

private theorem exists_ofOpcode? {op : Opcode} (rd rs1 : Register) {source : Option Action.Source}
    {imm : Option Int} (hsource : op.takesSource → source.isSome)
    (himm : op.shape = .address ∨ op.shape = .branch → imm.isSome) :
    ∃ a, Action.ofOpcode? rd rs1 source imm op = some a := by
  rw [← Option.isSome_iff_exists]
  cases op with
  | ld | st | b | beq | bgt | call => simpa [Action.ofOpcode?, Opcode.shape] using himm
  | ret | nop | sys => rfl
  | _ => simpa [Action.ofOpcode?, Opcode.takesSource, Opcode.shape] using hsource

/-- A decoded operation that has what it needs is an action. -/
theorem Decoded.action (h : o.Decoded word) (hl : ¬ o.LacksDisplacement) :
    ∃ a, o.action? = some a := by
  obtain ⟨rd, rs1, hrd, hrs1⟩ := h.registers
  suffices hof : ∃ a, Action.ofOpcode? rd rs1 o.source? o.imm o.op = some a by
    obtain ⟨a, ha⟩ := hof
    exact ⟨a, action?_eq_some_iff.2 ⟨rd, rs1, hrd, hrs1, ha⟩⟩
  cases h with
  | @register op hbranch hbare clear rd' rs1' rs2 =>
    refine exists_ofOpcode? rd rs1 (fun _ => ?_) ?_
    · simp [source?, Register.ofNumber?_val]
    · rintro (shape | shape)
      · exact absurd ⟨shape, rfl⟩ hl
      · exact absurd shape hbranch
  | immediate => exact exists_ofOpcode? rd rs1 (fun _ => rfl) (fun _ => rfl)
  | branch => exact exists_ofOpcode? rd rs1 (fun _ => rfl) (fun _ => rfl)
  | @bare op shape =>
    refine exists_ofOpcode? rd rs1 (fun takes => ?_) ?_
    · exact absurd shape (Opcode.shape_of_takesSource takes).2.2
    · simp [shape]

end Operation
end MiniRisc
