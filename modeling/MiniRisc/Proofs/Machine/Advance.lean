import MiniRisc.Proofs.Machine.Next
/-! Steps that execute an instruction. They are counted, and they leave the program counter inside
the program or right behind it, or where a return finds its link. -/
namespace MiniRisc

namespace Action

def destination? : Action → Option Int
  | branch _ target | call target => some target
  | _ => none

/-- Only branches and calls go to a target of their own, and a return goes where the link says. -/
theorem target_of_perform {policy : ServicePolicy} {s u : State} {a : Action} {target : Int}
    (h : a.perform policy s = .ok (u, some target)) : a.destination? = some target ∨
      (a = .ret ∧ target = s.registers.value .link) := by
  cases a with
  | branch condition other =>
    simp only [perform, Except.ok.injEq, Prod.mk.injEq, Option.ite_none_right_eq_some] at h
    exact .inl h.2.2
  | call other =>
    cases h
    exact .inl rfl
  | ret =>
    cases h
    exact .inr ⟨rfl, rfl⟩
  | compute f rd rs1 source =>
    rw [perform] at h
    split at h <;> cases h
  | load rd base displacement =>
    obtain ⟨-, -, -, htarget⟩ := behindAccess_eq_ok_iff.1 h
    cases htarget
  | store rs base displacement =>
    obtain ⟨-, -, -, htarget⟩ := behindAccess_eq_ok_iff.1 h
    cases htarget
  | serve =>
    rw [perform] at h
    split at h <;> cases h
  | compare | complement | move | idle => cases h

end Action

/-- A branch has its target as its immediate. -/
theorem Operation.branch_of_destination? {o : Operation} {a : Action} {target : Int}
    (ha : o.action? = some a) (h : a.destination? = some target) :
    o.op.shape = .branch ∧ o.imm = some target := by
  obtain ⟨rd, rs1, -, -, hof⟩ := action?_eq_some_iff.1 ha
  cases hop : o.op with
  | b | beq | bgt | call =>
    rw [hop] at hof
    obtain ⟨imm, himm, rfl⟩ := Option.map_eq_some_iff.1 hof
    exact ⟨rfl, himm.trans h⟩
  | ld | st =>
    rw [hop] at hof
    obtain ⟨imm, -, rfl⟩ := Option.map_eq_some_iff.1 hof
    cases h
  | ret | nop | sys =>
    rw [hop] at hof
    obtain rfl := Option.some.inj hof
    cases h
  | _ =>
    rw [hop] at hof
    obtain ⟨source, -, rfl⟩ := Option.map_eq_some_iff.1 hof
    cases h

namespace Machine
variable {m : Machine}

/-- Whether a step executes an instruction. -/
def advances (m : Machine) : Bool :=
  match m.step.1 with
  | .ok none => true
  | _ => false

def returns (m : Machine) : Bool := m.advances && m.current?.map (·.op) = some .ret

/-- A step that executes an instruction performs its action and goes on; no other changes the
state. -/
theorem advance_cases (made : m.program.Made) :
    (m.advances = true ∧ ∃ i a u target, m.current? = some i ∧ i.action? = some a ∧
      a.perform m.settings.policy m.state = .ok (u, target) ∧
      m.step.2.state = u.goto (target.getD (m.state.registers.pc + 1))) ∨
    (m.advances = false ∧ m.step.2.state = m.state) := by
  obtain ⟨hresult, hstate⟩ := step_next made
  unfold Program.next at hresult hstate
  unfold advances
  cases hi : m.program.fetch? m.state.registers.pc with
  | none =>
    rw [hi] at hresult hstate
    rw [hresult]
    exact .inr ⟨rfl, hstate⟩
  | some i =>
    cases ha : i.action? with
    | none =>
      simp only [hi, ha] at hresult hstate
      rw [hresult]
      exact .inr ⟨rfl, hstate⟩
    | some a =>
      simp only [hi, ha] at hresult hstate
      cases hs : a.apply m.settings.policy m.state with
      | error t =>
        rw [hs] at hresult hstate
        rw [hresult]
        exact .inr ⟨rfl, hstate⟩
      | ok s' =>
        rw [hs] at hresult hstate
        obtain ⟨u, target, hperform, rfl⟩ := Action.apply_eq_ok_iff.1 hs
        rw [hresult]
        exact .inl ⟨rfl, i, a, u, target, hi, ha, hperform, hstate⟩

theorem steps_step (made : m.program.Made) : m.step.2.state.registers.steps =
    m.state.registers.steps + m.advances.toNat := by
  rcases advance_cases made with ⟨hm, i, a, u, target, -, -, hperform, hstate⟩ | ⟨hm, hstate⟩
  · rw [hm, hstate, ← (Action.change_of_perform hperform).steps]
    rfl
  · rw [hm, hstate]
    rfl

/-- The program counter of a machine with an instruction before it is inside the program. -/
theorem pc_of_current? {i : Instruction} (hi : m.current? = some i) :
    0 ≤ m.state.registers.pc ∧ m.state.registers.pc < m.program.size := by
  by_contra outside
  rw [current?, Program.fetch?_eq_none_iff.2 outside] at hi
  cases hi

theorem pc_of_running (h : m.halted = false) :
    0 ≤ m.state.registers.pc ∧ m.state.registers.pc < m.program.size := by
  obtain ⟨i, hi⟩ := Option.isSome_iff_exists.1 (Option.isNone_eq_false_iff.1 h)
  exact pc_of_current? hi

/-- Where a step may leave the program counter: inside the program or right behind it, or where a
return found its link. -/
theorem place_step (made : m.program.Made)
    (inside : ∀ i ∈ m.program.instructions, i.toOperation.WellFormed m.program.size) :
    m.step.2.state.registers.pc = m.state.registers.pc ∨
    (0 ≤ m.step.2.state.registers.pc ∧ m.step.2.state.registers.pc ≤ m.program.size) ∨
    (m.returns = true ∧ m.step.2.state.registers.pc = m.state.registers.value .link) := by
  rcases advance_cases made with ⟨hm, i, a, u, target, hi, ha, hperform, hstate⟩ | ⟨-, hstate⟩
  · right
    rw [hstate]
    cases target with
    | none =>
      have hpc := pc_of_current? hi
      simp only [State.goto, Option.getD_none]
      omega
    | some target =>
      rcases Action.target_of_perform hperform with hdest | ⟨rfl, rfl⟩
      · obtain ⟨shape, himm⟩ := Operation.branch_of_destination? ha hdest
        exact .inl ((inside i (mem_of_current? hi)).inside shape target himm)
      · refine .inr ⟨?_, rfl⟩
        have hop : i.op = .ret := (Operation.op_of_action? ha).symm
        simp [returns, hm, hi, hop]
  · exact .inl (by rw [hstate])

end Machine
end MiniRisc
