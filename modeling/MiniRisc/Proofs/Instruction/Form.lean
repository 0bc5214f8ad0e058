import MiniRisc.Instruction.Basic
import MiniRisc.Register
/-! The form of operations: what the machine relies on, and what the assembler makes. -/
namespace MiniRisc

namespace Opcode

def takesSource (op : Opcode) : Bool := op.shape = .three || op.shape = .two

/-- A comparison leaves the target at zero, a copy or a complement the left register. -/
def LeavesUnused (op : Opcode) (rd rs1 : Register) : Prop :=
  (op = .cmp → rd = 0) ∧ (op = .not ∨ op = .mov → rs1 = 0)

theorem shape_of_takesSource {op : Opcode} (h : op.takesSource) :
    op.shape ≠ .address ∧ op.shape ≠ .branch ∧ op.shape ≠ .bare := by
  cases op <;> first | exact absurd h (by decide) | decide

end Opcode

namespace Operation

def NamesRegister (number : Int) : Prop := 0 ≤ number ∧ number < 16

def FitsField (imm : Int) : Prop := 0 ≤ imm ∧ imm < 2 ^ 16

structure Shaped (o : Operation) : Prop where
  target : NamesRegister o.rd
  left : NamesRegister o.rs1
  source : o.op.takesSource →
    (∃ number, o.rs2 = some number ∧ NamesRegister number ∧ o.imm = none) ∨
      ∃ imm, o.imm = some imm ∧ FitsField imm ∧ o.rs2 = none
  displacement : o.op.shape = .address → ∃ imm, o.imm = some imm ∧ FitsField imm ∧ o.rs2 = none
  branch : o.op.shape = .branch → ∃ index, o.imm = some index
  bare : o.op.shape = .bare → o.rs2 = none ∧ o.imm = none
  modifier : o.modifier ≠ .signed → o.op.modifiable ∧ o.imm.isSome

/-- The form that the machine relies on, in a program of a size. -/
structure WellFormed (size : Nat) (o : Operation) : Prop extends Shaped o where
  inside : o.op.shape = .branch → ∀ index, o.imm = some index → 0 ≤ index ∧ index ≤ size

/-- The operations that the assembler makes for a program of a size. Fields without a use are at
their defaults. -/
inductive Assembled (size : Nat) : Operation → Prop
  | register {op : Opcode} (takes : op.takesSource) (rd rs1 rs2 : Register)
      (unused : op.LeavesUnused rd rs1) :
      Assembled size { op, rd := rd.val, rs1 := rs1.val, rs2 := some (rs2.val : Int) }
  | immediate {op : Opcode} (takes : op.takesSource) (modifier : Modifier)
      (legal : modifier ≠ .signed → op.modifiable) (rd rs1 : Register)
      (unused : op.LeavesUnused rd rs1) {imm : Nat} (fits : imm < 2 ^ 16) :
      Assembled size { op, modifier, rd := rd.val, rs1 := rs1.val, imm := some (imm : Int) }
  | address {op : Opcode} (shape : op.shape = .address) (rd rs1 : Register) {imm : Nat}
      (fits : imm < 2 ^ 16) :
      Assembled size { op, rd := rd.val, rs1 := rs1.val, imm := some (imm : Int) }
  | branch {op : Opcode} (shape : op.shape = .branch) {index : Nat} (inside : index ≤ size) :
      Assembled size { op, imm := some (index : Int) }
  | bare {op : Opcode} (shape : op.shape = .bare) : Assembled size { op }

private theorem namesRegister_val (r : Register) : NamesRegister (r.val : Int) := by
  rw [NamesRegister]
  omega

private theorem namesRegister_zero : NamesRegister 0 := ⟨by decide, by decide⟩

/-- A number names a register exactly if it is the number of one. -/
theorem namesRegister_iff {number : Int} :
    NamesRegister number ↔ ∃ r : Register, number = r.val := by
  constructor
  · intro ⟨lower, upper⟩
    exact ⟨⟨number.toNat, by omega⟩, (Int.toNat_of_nonneg lower).symm⟩
  · rintro ⟨r, rfl⟩
    exact namesRegister_val r

private theorem fitsField_natCast {imm : Nat} (h : imm < 2 ^ 16) : FitsField (imm : Int) := by
  rw [FitsField]
  omega

private theorem shape_takesSource {op : Opcode} {shape : Shape} (h : op.shape = shape)
    (hthree : shape ≠ .three) (htwo : shape ≠ .two) : ¬ op.takesSource := by
  subst h
  simp [Opcode.takesSource, hthree, htwo]

private theorem Assembled.shaped {size : Nat} {o : Operation} (h : o.Assembled size) :
    o.Shaped := by
  cases h with
  | register takes rd rs1 rs2 =>
    obtain ⟨ha, hb, hc⟩ := Opcode.shape_of_takesSource takes
    exact {
      target := namesRegister_val rd
      left := namesRegister_val rs1
      source := fun _ => .inl ⟨_, rfl, namesRegister_val rs2, rfl⟩
      displacement := fun h => absurd h ha
      branch := fun h => absurd h hb
      bare := fun h => absurd h hc
      modifier := fun h => absurd rfl h }
  | immediate takes modifier legal rd rs1 unused fits =>
    obtain ⟨ha, hb, hc⟩ := Opcode.shape_of_takesSource takes
    exact {
      target := namesRegister_val rd
      left := namesRegister_val rs1
      source := fun _ => .inr ⟨_, rfl, fitsField_natCast fits, rfl⟩
      displacement := fun h => absurd h ha
      branch := fun h => absurd h hb
      bare := fun h => absurd h hc
      modifier := fun h => ⟨legal h, rfl⟩ }
  | address shape rd rs1 fits =>
    exact {
      target := namesRegister_val rd
      left := namesRegister_val rs1
      source := fun h => absurd h (shape_takesSource shape (by decide) (by decide))
      displacement := fun _ => ⟨_, rfl, fitsField_natCast fits, rfl⟩
      branch := fun h => by simp [shape] at h
      bare := fun h => by simp [shape] at h
      modifier := fun h => absurd rfl h }
  | branch shape inside =>
    exact {
      target := namesRegister_zero
      left := namesRegister_zero
      source := fun h => absurd h (shape_takesSource shape (by decide) (by decide))
      displacement := fun h => by simp [shape] at h
      branch := fun _ => ⟨_, rfl⟩
      bare := fun h => by simp [shape] at h
      modifier := fun h => absurd rfl h }
  | bare shape =>
    exact {
      target := namesRegister_zero
      left := namesRegister_zero
      source := fun h => absurd h (shape_takesSource shape (by decide) (by decide))
      displacement := fun h => by simp [shape] at h
      branch := fun h => by simp [shape] at h
      bare := fun _ => ⟨rfl, rfl⟩
      modifier := fun h => absurd rfl h }

/-- What the assembler makes has the form that the machine relies on. -/
theorem Assembled.wellFormed {size : Nat} {o : Operation} (h : o.Assembled size) :
    o.WellFormed size := by
  refine { h.shaped with inside := fun hshape index hindex => ?_ }
  cases h with
  | register takes => exact absurd hshape (Opcode.shape_of_takesSource takes).2.1
  | immediate takes => exact absurd hshape (Opcode.shape_of_takesSource takes).2.1
  | address shape => simp [shape] at hshape
  | branch shape inside =>
    obtain rfl := Option.some.inj hindex
    omega
  | bare => cases hindex

end Operation
end MiniRisc
