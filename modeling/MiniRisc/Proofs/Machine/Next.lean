import MiniRisc.Proofs.Machine.Image
/-! The next state of a machine whose program comes from the assembler or the image decoder. What a
step comes to hangs on the program, the policy and the state alone, and never on what has been
noted. -/
namespace MiniRisc

def State.beside (memory : Memory → Memory) (console : Console → Console) (s : State) : State :=
  { s with memory := memory s.memory, console := console s.console }

/-- Performing an action commutes with a change beside the registers if its access to memory or
its service does. -/
theorem Action.perform_beside (memory : Memory → Memory) (console : Console → Console)
    {policy : ServicePolicy} {s : State} {a : Action}
    (read : ∀ rd base displacement, a = .load rd base displacement →
      (memory s.memory).read32 (address s.registers base displacement) =
        s.memory.read32 (address s.registers base displacement))
    (write : ∀ rs base displacement, a = .store rs base displacement →
      (memory s.memory).write32 (address s.registers base displacement) (s.registers.value rs) =
        (s.memory.write32 (address s.registers base displacement) (s.registers.value rs)).map
          memory)
    (call : a = .serve →
      Service.call policy s.serviceNumber s.arguments (console s.console) =
        (Service.call policy s.serviceNumber s.arguments s.console).map (Prod.map id console)) :
    a.perform policy (s.beside memory console) =
      (a.perform policy s).map (Prod.map (State.beside memory console) id) := by
  have hregisters : (s.beside memory console).registers = s.registers := rfl
  cases a with
  | compute f rd rs1 source =>
    rw [perform, perform, hregisters]
    cases f.result? (s.registers.value rs1) (source.value s.registers) <;> rfl
  | load rd base displacement =>
    have hmemory : (s.beside memory console).memory = memory s.memory := rfl
    rw [perform, perform, hregisters, hmemory, read rd base displacement rfl]
    cases s.memory.read32 (address s.registers base displacement) <;> rfl
  | store rs base displacement =>
    have hmemory : (s.beside memory console).memory = memory s.memory := rfl
    rw [perform, perform, hregisters, hmemory, write rs base displacement rfl]
    cases s.memory.write32 (address s.registers base displacement) (s.registers.value rs) <;> rfl
  | serve =>
    have hcall : Service.call policy (s.beside memory console).serviceNumber
        (s.beside memory console).arguments (s.beside memory console).console = _ := call rfl
    rw [perform, perform, hcall]
    cases Service.call policy s.serviceNumber s.arguments s.console <;> rfl
  | compare | complement | move | branch | call | ret | idle => rfl

namespace Program
variable {p : Program}

/-- Programs that the assembler or the image decoder makes. -/
def Made (p : Program) : Prop :=
  (∃ source, ofSource source = .ok p) ∨ ∃ image, ofImage image = .ok p

/-- What the next step of a program comes to, and the state behind it. -/
def next (p : Program) (policy : ServicePolicy) (s : State) :
    Except Trouble (Option Stop) × State :=
  match p.fetch? s.registers.pc with
  | none => (.ok (some .halted), s)
  | some i =>
    match i.action? with
    | none => (.error (.defect .missingOperand), s)
    | some a =>
      match a.apply policy s with
      | .ok s' => (.ok none, s')
      | .error t => (.error (Machine.locate s.registers.pc i.line t), s)

theorem Made.instruction_cases (h : p.Made) {i : Instruction} (hi : i ∈ p.instructions) :
    (∃ a, i.action? = some a) ∨
      (∃ word : Int, i.toOperation.Decoded word) ∧ i.LacksDisplacement := by
  rcases h with ⟨source, h⟩ | ⟨image, h⟩
  · exact .inl (ofSource_assembled h i hi).wellFormed.toShaped.action
  · obtain ⟨word, hd⟩ := ofImage_decoded h i hi
    by_cases hl : i.LacksDisplacement
    · exact .inr ⟨⟨word, hd⟩, hl⟩
    · exact .inl (hd.action hl)

variable {policy : ServicePolicy} {s : State}

theorem next_of_error {i : Instruction} {a : Action} {t : Trouble}
    (hi : p.fetch? s.registers.pc = some i) (ha : i.action? = some a)
    (ht : a.perform policy s = .error t) :
    p.next policy s = (.error (Machine.locate s.registers.pc i.line t), s) := by
  simp only [next, hi, ha, Action.apply, ht]

/-- What is next commutes with a change beside the registers if performing the action does. -/
theorem next_beside (memory : Memory → Memory) (console : Console → Console)
    (perform : ∀ i a, p.fetch? s.registers.pc = some i → i.action? = some a →
      a.perform policy (s.beside memory console) =
        (a.perform policy s).map (Prod.map (State.beside memory console) id)) :
    p.next policy (s.beside memory console) =
      Prod.map id (State.beside memory console) (p.next policy s) := by
  have hregisters : (s.beside memory console).registers = s.registers := rfl
  unfold next
  rw [hregisters]
  cases hi : p.fetch? s.registers.pc with
  | none => rfl
  | some i =>
    cases ha : i.action? with
    | none => simp only [ha]; rfl
    | some a =>
      simp only [ha, Action.apply, perform i a hi ha, hregisters]
      cases a.perform policy s <;> rfl

end Program

/-- An operation without its displacement is no action. -/
theorem Operation.action?_of_lacks {o : Operation} (h : o.LacksDisplacement) :
    o.action? = none := by
  rw [Option.eq_none_iff_forall_ne_some]
  intro a ha
  obtain ⟨rd, rs1, -, -, hof⟩ := action?_eq_some_iff.1 ha
  obtain ⟨shape, himm⟩ := h
  rw [himm] at hof
  cases hop : o.op with
  | ld | st =>
    rw [hop] at hof
    cases hof
  | _ => simp [hop, Opcode.shape] at shape

/-- Services are asked for by one operation. -/
theorem Program.Made.serve_iff {p : Program} (made : p.Made) {i : Instruction}
    (hi : i ∈ p.instructions) : i.action? = some .serve ↔ i.op = .sys := by
  constructor
  · intro ha
    exact (Operation.op_of_action? ha).symm
  · intro hop
    rcases made.instruction_cases hi with ⟨a, ha⟩ | ⟨-, shape, -⟩
    · have hsys := (Operation.op_of_action? ha).trans hop
      cases a with
      | serve => exact ha
      | compute f => cases f <;> cases hsys
      | branch condition => cases condition <;> cases hsys
      | _ => cases hsys
    · rw [hop] at shape
      cases shape

namespace Machine
variable {m : Machine}

/-- A step comes to what is next for its program, and leaves the state that is next. -/
theorem step_next (made : m.program.Made) :
    m.step.1 = (m.program.next m.settings.policy m.state).1 ∧
      m.step.2.state = (m.program.next m.settings.policy m.state).2 := by
  unfold Program.next
  cases hi : m.program.fetch? m.state.registers.pc with
  | none =>
    rw [step_of_halted hi]
    exact ⟨rfl, rfl⟩
  | some i =>
    rcases made.instruction_cases (mem_of_current? hi) with ⟨a, ha⟩ | ⟨⟨word, hd⟩, hl⟩
    · obtain ⟨trace, journal, hm⟩ := step_of_action hi ha
      simp only [hm, ha]
      cases a.apply m.settings.policy m.state <;> exact ⟨rfl, rfl⟩
    · have hs := step_of_lacks hi hd hl
      simp only [Operation.action?_of_lacks hl]
      exact ⟨hs, step_error_state hs⟩

@[simp] theorem step_settings (m : Machine) : m.step.2.settings = m.settings := by
  obtain ⟨state, trace, journal, hm, -⟩ := m.step_machine
  rw [hm]

@[simp] theorem step_tracing (m : Machine) : m.step.2.tracing = m.tracing := by
  obtain ⟨state, trace, journal, hm, -⟩ := m.step_machine
  rw [hm]

theorem made_step (made : m.program.Made) : m.step.2.program.Made := m.step_program ▸ made

theorem made_after (made : m.program.Made) (n : Nat) : (m.after n).program.Made :=
  (m.after_program n).symm ▸ made

/-- What actions preserve, every step of such a program preserves. -/
theorem preserved_of_made {P : State → Prop} (made : m.program.Made)
    (goto : ∀ s pc, P s → P (s.goto pc))
    (change : ∀ policy s a u, Action.Change policy s a u → P s → P u)
    (h : P m.state) : P m.step.2.state := by
  refine preserved_by_step goto change (fun i hi => ?_) h
  rcases made.instruction_cases (mem_of_current? hi) with action | ⟨⟨word, hd⟩, hl⟩
  · exact .inr action
  · exact .inl ⟨_, step_of_lacks hi hd hl⟩

theorem binary_of_made (made : m.program.Made) (hb : m.state.console.Binary) :
    m.step.2.state.console.Binary :=
  preserved_of_made (P := fun s => s.console.Binary) made (fun _ _ hb => hb)
    (fun _ _ _ _ hchange hb => hchange.binary hb) hb

theorem size_step (made : m.program.Made) : m.step.2.state.memory.size = m.state.memory.size :=
  preserved_of_made (P := fun s => s.memory.size = m.state.memory.size) made (fun _ _ h => h)
    (fun _ _ _ _ hchange h => hchange.size.trans h) rfl

theorem size_after (made : m.program.Made) (n : Nat) :
    (m.after n).state.memory.size = m.state.memory.size := by
  induction n generalizing m with
  | zero => rfl
  | succ n ih => exact (ih (made_step made)).trans (size_step made)

theorem after_succ (m : Machine) (n : Nat) : m.after (n + 1) = (m.after n).step.2 := by
  induction n generalizing m with
  | zero => rfl
  | succ n ih => exact ih m.step.2

theorem halted_eq_true_iff : m.halted = true ↔ m.current? = none := Option.isNone_iff_eq_none

def passed : Nat → Machine → List Machine
  | 0, _ => []
  | n + 1, m => m :: passed n m.step.2

/-- How many steps a run takes, a last one that fails among them. -/
def taken : Nat → Machine → Nat
  | 0, _ => 0
  | n + 1, m =>
    if m.halted then 0
    else
      match m.step with
      | (.error _, _) => 1
      | (.ok _, m) => taken n m + 1

theorem runFor_of_halted (h : m.halted = true) (n : Nat) : m.runFor n = (.ok .halted, m) := by
  cases n <;> simp [runFor, h]

theorem runFor_of_ok {stop : Option Stop} (running : m.halted = false)
    (h : m.step.1 = .ok stop) (n : Nat) : m.runFor (n + 1) = m.step.2.runFor n := by
  rw [runFor, running]
  generalize m.step = result at h ⊢
  obtain ⟨result, u⟩ := result
  obtain rfl : result = .ok stop := h
  rfl

theorem runFor_of_error {t : Trouble} (running : m.halted = false) (h : m.step.1 = .error t)
    (n : Nat) : m.runFor (n + 1) = (.error t, m.step.2) := by
  rw [runFor, running]
  generalize m.step = result at h ⊢
  obtain ⟨result, u⟩ := result
  obtain rfl : result = .error t := h
  rfl

theorem runFor_taken (m : Machine) (n : Nat) : (m.runFor n).2 = m.after (m.taken n) := by
  induction n generalizing m with
  | zero => rfl
  | succ n ih =>
    unfold runFor taken
    split
    · rfl
    · cases hs : m.step with
      | mk result next =>
        cases result with
        | error t => exact (congrArg Prod.snd hs).symm
        | ok stop =>
          simp only [after, hs]
          exact ih next

end Machine
end MiniRisc
