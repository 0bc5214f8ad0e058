import MiniRisc.Proofs.Machine.Advance
import MiniRisc.Proofs.Machine.Safety
import MiniRisc.Proofs.Machine.Tracing
import MiniRisc.Proofs.Machine.Twin
/-! Programs that only go forward. Every instruction executed brings the program counter nearer to
the end of the program, so that a run of such a program ends without a limit. -/
namespace MiniRisc

namespace Program
variable {p : Program}

/-- Programs without returns whose branches and calls all go to behind themselves. -/
def Forward (p : Program) : Prop :=
  ∀ k : Fin p.instructions.size, p.instructions[k].op ≠ .ret ∧
    (p.instructions[k].op.shape = .branch → ∀ target ∈ p.instructions[k].imm, (k : Int) < target)

/-- Programs without returns, branches and calls. -/
def Straight (p : Program) : Prop :=
  ∀ k : Fin p.instructions.size, p.instructions[k].op ≠ .ret ∧
    p.instructions[k].op.shape ≠ .branch

instance : Decidable p.Forward := inferInstanceAs (Decidable (∀ _, _))

instance : Decidable p.Straight := inferInstanceAs (Decidable (∀ _, _))

private theorem exists_index {pc : Int} {i : Instruction} (h : p.fetch? pc = some i) :
    ∃ k : Fin p.instructions.size, pc = k ∧ p.instructions[k] = i := by
  unfold fetch? at h
  split at h
  · obtain ⟨hk, hi⟩ := Array.getElem?_eq_some_iff.1 h
    exact ⟨⟨pc.toNat, hk⟩, by simp; omega, hi⟩
  · cases h

private theorem Forward.lt {pc : Int} {i : Instruction} (h : p.Forward)
    (hi : p.fetch? pc = some i) :
    i.op ≠ .ret ∧ (i.op.shape = .branch → ∀ target, i.imm = some target → pc < target) := by
  obtain ⟨k, rfl, rfl⟩ := exists_index hi
  exact h k

end Program

namespace Machine

/-- Machines on their way through an assembled program that only goes forward, of which they have
executed no more instructions than there are before the program counter. -/
structure Onward (m : Machine) : Prop where
  assembled : ∃ source, Program.ofSource source = .ok m.program
  forward : m.program.Forward
  binary : m.state.console.Binary
  behind : (m.state.registers.steps : Int) ≤ m.state.registers.pc
  ahead : m.state.registers.pc ≤ m.program.size

variable {m : Machine}

/-- A step that neither fails nor finds the machine halted executes an instruction. -/
theorem advances_of_ok {stop : Option Stop} (running : m.halted = false)
    (h : m.step.1 = .ok stop) : m.advances = true := by
  have hstepped := m.stepped
  unfold advances
  generalize m.step = result at hstepped h ⊢
  cases hstepped with
  | halted current =>
    rw [halted, current] at running
    cases running
  | executed => rfl
  | unnoted | failed => cases h

/-- Without returns, branches and calls, the next instruction executed is the one behind. -/
theorem pc_step_of_straight (made : m.program.Made) (straight : m.program.Straight)
    (h : m.advances = true) : m.step.2.state.registers.pc = m.state.registers.pc + 1 := by
  rcases advance_cases made with ⟨-, i, a, u, target, hi, ha, hperform, hstate⟩ | ⟨hm, -⟩
  · obtain ⟨k, -, rfl⟩ := Program.exists_index hi
    obtain ⟨hret, hbranch⟩ := straight k
    rw [hstate]
    cases target with
    | none => rfl
    | some target =>
      rcases Action.target_of_perform hperform with hdest | ⟨rfl, -⟩
      · exact absurd (Operation.branch_of_destination? ha hdest).1 hbranch
      · exact absurd (Operation.op_of_action? ha).symm hret
  · rw [hm] at h
    cases h

namespace Onward

theorem made (h : m.Onward) : m.program.Made := .inl h.assembled

theorem wellFormed (h : m.Onward) :
    ∀ i ∈ m.program.instructions, i.toOperation.WellFormed m.program.size := by
  obtain ⟨source, hp⟩ := h.assembled
  exact fun i hi => (Program.ofSource_assembled hp i hi).wellFormed

theorem sound (h : m.Onward) : m.Sound where
  actions := fun i hi => (h.wellFormed i hi).toShaped.action
  binary := h.binary

private theorem pc_of_halted (h : m.Onward) (hm : m.halted = true) :
    m.state.registers.pc = m.program.size := by
  have hpc := Program.fetch?_eq_none_iff.1 (halted_eq_true_iff.1 hm)
  have hbehind := h.behind
  have hahead := h.ahead
  omega

/-- An instruction executed leaves the program counter further on, at most right behind the
program. -/
theorem pc_step (h : m.Onward) (hm : m.advances = true) :
    m.state.registers.pc < m.step.2.state.registers.pc ∧
      m.step.2.state.registers.pc ≤ m.program.size := by
  rcases advance_cases h.made with ⟨-, i, a, u, target, hi, ha, hperform, hstate⟩ | ⟨hm', -⟩
  · obtain ⟨hret, hforward⟩ := h.forward.lt hi
    rw [hstate]
    cases target with
    | none =>
      have hpc := pc_of_current? hi
      simp only [State.goto, Option.getD_none]
      omega
    | some target =>
      rcases Action.target_of_perform hperform with hdest | ⟨rfl, -⟩
      · obtain ⟨shape, himm⟩ := Operation.branch_of_destination? ha hdest
        exact ⟨hforward shape target himm,
          ((h.wellFormed i (mem_of_current? hi)).inside shape target himm).2⟩
      · exact absurd (Operation.op_of_action? ha).symm hret
  · rw [hm'] at hm
    cases hm

theorem step (h : m.Onward) : m.step.2.Onward := by
  have hsteps := steps_step h.made
  have hbinary := binary_of_made h.made h.binary
  have hbehind := h.behind
  have hahead := h.ahead
  rw [← m.step_program] at hahead
  have hpc : m.step.2.state.registers.steps ≤ m.step.2.state.registers.pc ∧
      m.step.2.state.registers.pc ≤ m.step.2.program.size := by
    cases hm : m.advances with
    | true =>
      have hnext := h.pc_step hm
      rw [hsteps, hm, m.step_program]
      simp only [Bool.toNat_true]
      omega
    | false =>
      rcases advance_cases h.made with ⟨hm', -⟩ | ⟨-, hstate⟩
      · rw [hm] at hm'
        cases hm'
      · rw [hstate]
        exact ⟨hbehind, hahead⟩
  exact ⟨m.step_program ▸ h.assembled, m.step_program ▸ h.forward, hbinary, hpc.1, hpc.2⟩

/-- Without branches and calls, the program counter keeps counting the instructions executed. -/
theorem pc_after (h : m.Onward) (straight : m.program.Straight)
    (hpc : m.state.registers.pc = m.state.registers.steps) (n : Nat) :
    (m.after n).state.registers.pc = (m.after n).state.registers.steps := by
  refine (preserved_by_steps (P := fun u => u.program = m.program ∧
    u.state.registers.pc = u.state.registers.steps) (fun u hu => ?_) ⟨rfl, hpc⟩ n).2
  obtain ⟨hp, hpc⟩ := hu
  have made : u.program.Made := hp ▸ h.made
  refine ⟨u.step_program.trans hp, ?_⟩
  have hsteps := steps_step made
  rcases advance_cases made with ⟨hm, -⟩ | ⟨-, hstate⟩
  · rw [pc_step_of_straight made (hp ▸ straight) hm, hsteps, hm, hpc]
    rfl
  · rw [hstate]
    exact hpc

/-- A run of as many steps as there are instructions ahead has ended. By induction on the steps:
each instruction executed leaves fewer ahead. -/
theorem runFor (h : m.Onward) {n : Nat} (hn : m.program.size ≤ m.state.registers.pc + n) :
    ∃ result u, m.runFor n = (result, u) ∧
      ((result = .ok .halted ∧ u.state.registers.pc = m.program.size ∧
          u.state.registers.steps ≤ m.program.size) ∨
        ∃ f, result = .error (.fault f) ∧ u.state.registers.steps < m.program.size) := by
  have hbehind := h.behind
  induction n generalizing m with
  | zero =>
    cases hm : m.halted with
    | true =>
      have hpc := h.pc_of_halted hm
      exact ⟨_, _, runFor_of_halted hm 0, .inl ⟨rfl, hpc, by omega⟩⟩
    | false =>
      have hpc := pc_of_running hm
      omega
  | succ n ih =>
    cases hm : m.halted with
    | true =>
      have hpc := h.pc_of_halted hm
      exact ⟨_, _, runFor_of_halted hm _, .inl ⟨rfl, hpc, by omega⟩⟩
    | false =>
      cases hs : m.step.1 with
      | error t =>
        rw [runFor_of_error hm hs]
        cases t with
        | fault f =>
          refine ⟨_, _, rfl, .inr ⟨f, rfl, ?_⟩⟩
          rw [step_error_state hs]
          have hpc := pc_of_running hm
          omega
        | defect d => exact absurd hs (h.sound.step_ne_defect d)
      | ok stop =>
        have hnext := h.pc_step (advances_of_ok hm hs)
        rw [runFor_of_ok hm hs, ← m.step_program]
        refine ih h.step ?_ h.step.behind
        rw [m.step_program]
        omega

end Onward

/-- A fresh machine with an assembled program that only goes forward runs to an end without a limit,
whatever its settings, its memory and the bytes of its streams. It executes no more instructions
than the program has and halts right behind the program, or it comes to a fault before that many.
If the program has no branches and calls either, the program counter is the number of instructions
executed all along, and a run that halts has executed all of them. -/
theorem forward_run_ends {source : String} {p : Program}
    (assembled : Program.ofSource source = .ok p) (forward : p.Forward) {m : Machine}
    (program : m.program = p) (fresh : m.state.registers = {})
    (binary : m.state.console.Binary) (unlimited : m.settings.stepLimit = none) :
    ∃ result u, (∀ r, m.Ends (m.limit? none) r ↔ r = (result, u)) ∧
      ((result = .ok .halted ∧ u.state.registers.pc = p.size ∧
          u.state.registers.steps ≤ p.size) ∨
        ∃ f, result = .error (.fault f) ∧ u.state.registers.steps < p.size) ∧
      (p.Straight →
        (∀ n, (m.after n).state.registers.pc = (m.after n).state.registers.steps) ∧
        (result = .ok .halted → u.state.registers.steps = p.size)) := by
  subst program
  have h : m.Onward := by
    refine ⟨⟨source, assembled⟩, forward, binary, ?_, ?_⟩
    · rw [fresh]
      rfl
    · rw [fresh]
      exact Int.natCast_nonneg _
  have hlimit : m.limit? none = none := by rw [limit?, unlimited]; rfl
  obtain ⟨result, u, hrun, hend⟩ := h.runFor (n := m.program.size) (by rw [fresh]; simp)
  have hends : m.Ends none (result, u) := by
    rw [← hrun]
    refine .unlimited _ ?_
    rw [hrun]
    rcases hend with ⟨rfl, -⟩ | ⟨f, rfl, -⟩ <;> simp
  have hu : u = m.after (m.taken m.program.size) := by
    rw [← m.runFor_taken, hrun]
  refine ⟨result, u, fun r => ?_, hend, fun straight => ?_⟩
  · rw [hlimit]
    exact ⟨fun hr => hr.unique hends, fun hr => hr ▸ hends⟩
  · have along := h.pc_after straight (by rw [fresh]; rfl)
    refine ⟨along, fun hresult => ?_⟩
    have hpc := along (m.taken m.program.size)
    rw [← hu] at hpc
    rcases hend with ⟨-, hhalted, -⟩ | ⟨f, hfault, -⟩
    · omega
    · rw [hresult] at hfault
      cases hfault

def skipping : Program where
  instructions := #[
    { op := .cmp, rs1 := 1, imm := some 0, line := 1 },
    { op := .beq, imm := some 3, line := 2, label := some "done" },
    { op := .add, rd := 1, rs1 := 1, imm := some 1, line := 3 },
    { op := .nop, line := 4 }]
  labels := [("done", 3)]

private theorem ofSource_skipping :
    Program.ofSource "cmp r1, 0\nbeq done\nadd r1, r1, 1\ndone: nop" = .ok skipping := by
  cbv

theorem forward_run_ends_skipping_stray :
    (skipping.Forward ∧ ∃ u, (start skipping {} {}).Ends none (.ok .halted, u) ∧
      u.state.registers.pc = 4 ∧ u.state.registers.steps ≤ 4) ∧
    moveAndStray.Forward ∧ moveAndStray.Straight ∧
      ((start moveAndStray {} {}).after 1).state.registers.pc = 1 := by
  have hskipping : skipping.Forward := by decide
  have hforward : moveAndStray.Forward := by decide
  have hstraight : moveAndStray.Straight := by decide
  have hb : (start skipping {} {}).state.console.Binary := ⟨by decide, by decide⟩
  have hb' : (start moveAndStray {} {}).state.console.Binary := ⟨by decide, by decide⟩
  obtain ⟨result, u, hends, hend, -⟩ :=
    forward_run_ends ofSource_skipping hskipping (m := start skipping {} {}) rfl rfl hb rfl
  obtain ⟨_, _, _, _, halong⟩ :=
    forward_run_ends ofSource_moveAndStray hforward (m := start moveAndStray {} {}) rfl rfl hb' rfl
  have hstopped : ((start skipping {} {}).runFor 3).1 = .ok .halted := rfl
  obtain rfl : .ok .halted = result :=
    congrArg Prod.fst ((hends _).1 (.unlimited 3 (by rw [hstopped]; simp)))
  refine ⟨⟨hskipping, u, (hends _).2 rfl, ?_⟩, hforward, hstraight, (halong hstraight).1 1⟩
  rcases hend with ⟨-, hpc, hsteps⟩ | ⟨f, hfault, -⟩
  · exact ⟨hpc, hsteps⟩
  · cases hfault

end Machine
end MiniRisc
