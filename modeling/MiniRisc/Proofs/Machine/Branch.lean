import MiniRisc.Proofs.Machine.Step
/-! Branches that are taken: the machine goes to their target, and on with the instruction
there. -/
namespace MiniRisc

def Opcode.branches (rs : Registers) : Opcode → Bool
  | b | call => true
  | beq => rs.equal
  | bgt => rs.greater
  | _ => false

namespace Machine
variable {m : Machine} {op : Opcode} {target line : Int} {label : Option String}

private theorem apply_branch (target : Int) (taken : op.branches m.state.registers)
    (policy : ServicePolicy) : ∃ a s,
      ({ op, imm := some target } : Operation).action? = some a ∧
      a.apply policy m.state = .ok s ∧ s.registers.pc = target := by
  cases op with
  | b => exact ⟨.branch .always target, _, rfl, rfl, rfl⟩
  | call => exact ⟨.call target, _, rfl, rfl, rfl⟩
  | beq =>
    refine ⟨.branch .equal target, m.state.goto target, rfl, ?_, rfl⟩
    have hequal : m.state.registers.equal = true := taken
    simp [Action.apply, Action.perform, Action.Condition.holds, hequal]
  | bgt =>
    refine ⟨.branch .greater target, m.state.goto target, rfl, ?_, rfl⟩
    have hgreater : m.state.registers.greater = true := taken
    simp [Action.apply, Action.perform, Action.Condition.holds, hgreater]
  | _ => cases taken

theorem step_of_branch (hi : m.current? = some { op, imm := some target, line, label })
    (taken : op.branches m.state.registers) :
    m.step.1 = .ok none ∧ m.step.2.current? = m.program.fetch? target := by
  obtain ⟨a, s, ha, hs, hpc⟩ := apply_branch target taken m.settings.policy
  obtain ⟨trace, journal, hm⟩ := step_of_action hi ha
  rw [hs] at hm
  rw [hm]
  exact ⟨rfl, by rw [current?, hpc]⟩

end Machine
end MiniRisc
