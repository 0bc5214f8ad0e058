import MiniRisc.Proofs.Machine.Memory
import MiniRisc.Proofs.Machine.Service
import MiniRisc.Proofs.Machine.Step
import MiniRisc.Proofs.Word.Bits
/-! Faults: which actions have them, and that a machine with one is as it was before. -/
namespace MiniRisc

namespace Action

/-- The causes for which an action is refused in a state. An address is the sum of the base and
the displacement with its sign, as a signed word. -/
def Faults (policy : ServicePolicy) (s : State) (cause : Fault.Cause) : Action → Prop
  | compute f _ _ source =>
    (f = .div ∨ f = .mod) ∧ source.value s.registers = 0 ∧ cause = .divisionByZero
  | load _ base displacement | store _ base displacement =>
    s.memory.Refuses
      (Word.bits (s.registers.value base) + (BitVec.ofInt 16 displacement).signExtend 32).toInt
      cause
  | serve =>
    s.serviceNumber ≠ 0 ∧ s.serviceNumber ≠ 1 ∧ policy = .refuse ∧
      cause = .unknownService s.serviceNumber
  | _ => False

theorem address_eq (rs : Registers) (base : Register) (displacement : Int) :
    address rs base displacement =
      (Word.bits (rs.value base) + (BitVec.ofInt 16 displacement).signExtend 32).toInt := by
  rw [address, Word.add, Word.wrap_eq_toInt_ofInt, ← Word.bits, Word.bits_add, Word.bits_widen]

theorem isWritable_address (rs : Registers) (base : Register) (displacement : Int) :
    Text.isWritable (address rs base displacement) = true :=
  Text.isWritable_of_fits (Word.wrap_lower _) (Word.wrap_upper _)

private theorem result?_eq_none_iff {f : Arithmetic} {a b : Int} :
    f.result? a b = none ↔ (f = .div ∨ f = .mod) ∧ b = 0 := by
  cases f <;> simp [Arithmetic.result?, Word.div?, Word.mod?]

private theorem ofCause_inj {c d : Fault.Cause} : Trouble.ofCause c = .ofCause d ↔ d = c := by
  simp [Trouble.ofCause, eq_comm]

theorem behindAccess_eq_fault_iff {α : Type} {access : Except Fault.Cause α} {state : α → State}
    {cause : Fault.Cause} :
    behindAccess access state = .error (.ofCause cause) ↔ access = .error cause := by
  cases access <;> simp [behindAccess, ofCause_inj, eq_comm]

private theorem behindAccess_error {α : Type} {access : Except Fault.Cause α} {state : α → State}
    {t : Trouble} (h : behindAccess access state = .error t) : ∃ cause, t = .ofCause cause := by
  cases access with
  | ok a => cases h
  | error cause => exact ⟨cause, (Except.error.inj h).symm⟩

/-- An action has a fault for exactly the causes for which it is refused. -/
theorem perform_eq_fault_iff {policy : ServicePolicy} {s : State} {a : Action}
    {cause : Fault.Cause} :
    a.perform policy s = .error (.ofCause cause) ↔ a.Faults policy s cause := by
  cases a with
  | compute f rd rs1 source =>
    rw [Faults, ← and_assoc, ← result?_eq_none_iff (a := s.registers.value rs1), perform]
    cases f.result? (s.registers.value rs1) (source.value s.registers) <;> simp [ofCause_inj]
  | load rd base displacement =>
    rw [perform, behindAccess_eq_fault_iff, Memory.read32_eq_error_iff (isWritable_address ..),
      Faults, address_eq]
  | store rs base displacement =>
    rw [perform, behindAccess_eq_fault_iff, Memory.write32_eq_error_iff (isWritable_address ..),
      Faults, address_eq]
  | serve =>
    rw [perform, Faults, ← Service.call_eq_fault_iff (s := s) (c := s.console)]
    cases Service.call policy s.serviceNumber s.arguments s.console <;> simp
  | compare | complement | move | branch | call | ret | idle => simp [perform, Faults]

/-- An action that fails has a fault, or it asks a stream of text for bytes. -/
theorem perform_error {policy : ServicePolicy} {s : State} {a : Action} {t : Trouble}
    (h : a.perform policy s = .error t) : (∃ cause, t = .ofCause cause) ∨
      (s.console.input = .text ∧ t = .defect .textInput) ∨
        (s.console.output = .text ∧ t = .defect .textOutput) := by
  cases a with
  | compute f rd rs1 source =>
    rw [perform] at h
    split at h
    · cases h
    · exact .inl ⟨_, (Except.error.inj h).symm⟩
  | load rd base displacement =>
    exact .inl (behindAccess_error h)
  | store rs base displacement =>
    exact .inl (behindAccess_error h)
  | serve =>
    rw [perform] at h
    split at h
    · cases h
    · rename_i hc
      cases h
      rcases Service.call_error hc with ⟨-, -, -, hcause⟩ | hd
      · exact .inl ⟨_, hcause⟩
      · exact .inr hd
  | compare | complement | move | branch | call | ret | idle => cases h

end Action

namespace Machine

theorem place_of_fault {m : Machine} {f : Fault} (h : m.step.1 = .error (.fault f)) :
    f.pc = m.state.registers.pc ∧ ∃ i, m.current? = some i ∧ f.line = i.line := by
  have hs := m.stepped
  generalize m.step = result at h hs
  cases hs with
  | halted | unnoted | executed => cases h
  | @failed i trouble _ _ _ hi =>
    cases trouble with
    | fault g =>
      cases h
      exact ⟨rfl, i, hi, rfl⟩
    | defect d => cases h

/-- A step that has failed comes to the same if it is tried again. -/
theorem step_again {m : Machine} {t : Trouble} (h : m.step.1 = .error t) :
    m.step.2.state = m.state ∧ m.step.2.step.1 = .error t := by
  obtain ⟨state, trace, journal, hm, hstate⟩ := m.step_machine
  obtain rfl := hstate t h
  rw [hm, step_noted]
  exact ⟨rfl, h⟩

private theorem locate_ofCause_eq_iff {pc line : Int} {cause : Fault.Cause} {f : Fault} :
    locate pc line (.ofCause cause) = .fault f ↔ f.pc = pc ∧ f.line = line ∧ cause = f.cause := by
  obtain ⟨cause', pc', line'⟩ := f
  simp only [locate, Trouble.ofCause, Fault.locate, Trouble.fault.injEq, Fault.mk.injEq]
  constructor
  · rintro ⟨rfl, rfl, rfl⟩
    exact ⟨rfl, rfl, rfl⟩
  · rintro ⟨rfl, rfl, rfl⟩
    exact ⟨rfl, rfl, rfl⟩

theorem step_eq_fault_iff {m : Machine} {i : Instruction} {a : Action} (hi : m.current? = some i)
    (ha : i.action? = some a) {f : Fault} : m.step.1 = .error (.fault f) ↔
      f.pc = m.state.registers.pc ∧ f.line = i.line ∧
        a.Faults m.settings.policy m.state f.cause := by
  obtain ⟨trace, journal, hm⟩ := step_of_action hi ha
  rw [hm, ← Action.perform_eq_fault_iff, ← Action.apply_eq_error_iff]
  cases hs : a.apply m.settings.policy m.state with
  | ok state => simp
  | error t =>
    simp only [Except.error.injEq]
    rcases Action.perform_error (Action.apply_eq_error_iff.1 hs) with ⟨c, rfl⟩ | ⟨-, rfl⟩ | ⟨-, rfl⟩
    · rw [locate_ofCause_eq_iff]
      simp [Trouble.ofCause]
    · simp [locate, Trouble.ofCause]
    · simp [locate, Trouble.ofCause]

/-- A fault has the place of the instruction, leaves the state as it was and comes again. An
instruction with the operands of its shape has a fault for exactly the causes of its action. -/
theorem fault_precise (m : Machine) :
    (∀ f, m.step.1 = .error (.fault f) →
      m.step.2.state = m.state ∧ f.pc = m.state.registers.pc ∧
        (∃ i, m.current? = some i ∧ f.line = i.line) ∧ m.step.2.step.1 = .error (.fault f)) ∧
    ∀ i, m.current? = some i → i.toOperation.Shaped → ∃ a, i.action? = some a ∧
      ∀ f, m.step.1 = .error (.fault f) ↔ f.pc = m.state.registers.pc ∧ f.line = i.line ∧
        a.Faults m.settings.policy m.state f.cause := by
  constructor
  · intro f h
    obtain ⟨hstate, hagain⟩ := step_again h
    obtain ⟨hpc, hline⟩ := place_of_fault h
    exact ⟨hstate, hpc, hline, hagain⟩
  · intro i hi shaped
    obtain ⟨a, ha⟩ := shaped.action
    exact ⟨a, ha, fun f => step_eq_fault_iff hi ha⟩

theorem fault_precise_unaligned :
    (start ⟨#[{ op := .ld, rd := 1, imm := some 2, line := 1 }], []⟩ {} {}).step.1 =
        .error (.fault ⟨.unaligned 2, 0, 1⟩) ∧
      (start ⟨#[{ op := .ld, rd := 1, imm := some 2, line := 1 }], []⟩ {} {}).step.2.step.1 =
        .error (.fault ⟨.unaligned 2, 0, 1⟩) :=
  ⟨rfl, ((fault_precise _).1 _ rfl).2.2.2⟩

end Machine
end MiniRisc
