import MiniRisc.Proofs.Machine.Action
import MiniRisc.Proofs.Machine.Atomic
/-! What one step does to a machine. Apart from the state a step changes nothing but what the
machine notes. -/
namespace MiniRisc

theorem registerName_val (r : Register) : Instruction.registerName r.val = .ok r.name := by
  rw [Instruction.registerName, Register.ofNumber?_val]

private theorem sourceText_ok {i : Instruction} {source : Action.Source}
    (h : i.source? = some source) : ∃ text, i.sourceText = .ok text := by
  cases himm : i.imm with
  | some imm =>
    exact ⟨Instruction.immediateText i.modifier imm, by simp [Instruction.sourceText, himm]⟩
  | none =>
    cases hrs2 : i.rs2 with
    | none => simp [Operation.source?, himm, hrs2] at h
    | some number =>
      simp only [Operation.source?, himm, hrs2] at h
      obtain ⟨r, hr, -⟩ := Option.map_eq_some_iff.1 h
      refine ⟨r.name, ?_⟩
      simp only [Instruction.sourceText, himm, hrs2, Register.ofNumber?_eq_some_iff.1 hr,
        registerName_val]

/-- An instruction that is an action has a text. -/
theorem Instruction.render_ok {i : Instruction} {a : Action} (h : i.action? = some a) :
    ∃ text, i.render = .ok text := by
  obtain ⟨rd, rs1, hrd, hrs1, ha⟩ := Operation.action?_eq_some_iff.1 h
  rw [render]
  rw [hrd, hrs1, registerName_val, registerName_val]
  cases hop : i.op with
  | ld | st =>
    rw [hop] at ha
    obtain ⟨displacement, himm, -⟩ := Option.map_eq_some_iff.1 ha
    simp only [displacementText, himm]
    exact ⟨_, rfl⟩
  | b | beq | bgt | call | ret | nop | sys => exact ⟨_, rfl⟩
  | _ =>
    rw [hop] at ha
    obtain ⟨source, hs, -⟩ := Option.map_eq_some_iff.1 ha
    obtain ⟨text, ht⟩ := sourceText_ok hs
    rw [ht]
    exact ⟨_, rfl⟩

namespace Machine
variable {m : Machine} {i : Instruction}

theorem traceLine_ok {a : Action} (ha : i.action? = some a) (rs : Registers) :
    ∃ line, traceLine rs i = .ok line := by
  obtain ⟨text, ht⟩ := Instruction.render_ok ha
  rw [traceLine, ht]
  exact ⟨_, rfl⟩

theorem note_cases (m : Machine) (i : Instruction) : (∃ d, m.note i = .error d) ∨
    ∃ trace journal, m.note i = .ok { m with trace, journal } := by
  rw [note]
  split
  · cases traceLine m.state.registers i with
    | error d => exact .inl ⟨d, rfl⟩
    | ok line => exact .inr ⟨_, _, rfl⟩
  · exact .inr ⟨m.trace, m.journal, rfl⟩

theorem note_eq_error_iff {d : Defect} :
    m.note i = .error d ↔ m.tracing = true ∧ traceLine m.state.registers i = .error d := by
  rw [note]
  split
  · rename_i ht
    cases traceLine m.state.registers i with
    | error d => simp [ht, bind, Except.bind]
    | ok line => simp [bind, Except.bind, pure, Except.pure]
  · rename_i ht
    simp [ht]

theorem note_of_silent (h : m.tracing = false) (i : Instruction) : m.note i = .ok m := by
  rw [note, h]
  rfl

theorem step_of_halted (hi : m.current? = none) : m.step = (.ok (some .halted), m) := by
  simp only [step, hi]

theorem step_of_note_error {d : Defect} (hi : m.current? = some i) (hn : m.note i = .error d) :
    m.step = (.error (.defect d), m) := by
  simp only [step, hi, hn]

section Noted
variable {trace : Array String} {journal : Array Log.Entry} (hi : m.current? = some i)
  (hn : m.note i = .ok { m with trace, journal })
include hi hn

theorem step_of_execute_ok {u : Unit} {state : State}
    (he : (Effect.execute m.settings.policy i.toOperation).run m.state = .ok u state) :
    m.step = (.ok none, { m with state, trace, journal := journal ++ m.notices i }) := by
  simp only [step, hi, hn, he, log]

theorem step_of_execute_error {trouble : Trouble} {state : State}
    (he : (Effect.execute m.settings.policy i.toOperation).run m.state = .error trouble state) :
    m.step = (.error (locate m.state.registers.pc i.line trouble),
      { m with trace, journal := journal ++ m.notices i }) := by
  obtain rfl := Effect.atomic_execute _ _ _ _ _ he
  simp only [step, hi, hn, he, log]

end Noted

/-- What a step can come to: the machine has halted, its instruction cannot be noted, or it is
executed or fails. -/
inductive Stepped (m : Machine) : Except Trouble (Option Stop) × Machine → Prop
  | halted (current : m.current? = none) : Stepped m (.ok (some .halted), m)
  | unnoted {i : Instruction} {d : Defect} (current : m.current? = some i)
      (note : m.note i = .error d) : Stepped m (.error (.defect d), m)
  | executed {i : Instruction} {state : State} (trace : Array String) (journal : Array Log.Entry)
      (current : m.current? = some i)
      (run : (Effect.execute m.settings.policy i.toOperation).run m.state = .ok () state) :
      Stepped m (.ok none, { m with state, trace, journal })
  | failed {i : Instruction} {trouble : Trouble} {state : State} (trace : Array String)
      (journal : Array Log.Entry) (current : m.current? = some i)
      (run : (Effect.execute m.settings.policy i.toOperation).run m.state = .error trouble state) :
      Stepped m (.error (locate m.state.registers.pc i.line trouble), { m with trace, journal })

theorem stepped (m : Machine) : Stepped m m.step := by
  cases hi : m.current? with
  | none =>
    rw [step_of_halted hi]
    exact .halted hi
  | some i =>
    rcases m.note_cases i with ⟨d, hn⟩ | ⟨trace, journal, hn⟩
    · rw [step_of_note_error hi hn]
      exact .unnoted hi hn
    · cases he : (Effect.execute m.settings.policy i.toOperation).run m.state with
      | ok u state =>
        rw [step_of_execute_ok hi hn he]
        exact .executed trace _ hi he
      | error trouble state =>
        rw [step_of_execute_error hi hn he]
        exact .failed trace _ hi he

/-- A step changes the state and what is noted, and a failed step does not change the state. -/
theorem step_machine (m : Machine) : ∃ state trace journal,
    m.step.2 = { m with state, trace, journal } ∧ ∀ t, m.step.1 = .error t → state = m.state := by
  have h := m.stepped
  generalize m.step = result at h ⊢
  cases h with
  | halted | unnoted => exact ⟨m.state, m.trace, m.journal, rfl, fun _ _ => rfl⟩
  | @executed i state trace journal => exact ⟨state, trace, journal, rfl, fun _ h => by cases h⟩
  | failed trace journal => exact ⟨m.state, trace, journal, rfl, fun _ _ => rfl⟩

theorem step_error_state {t : Trouble} (h : m.step.1 = .error t) : m.step.2.state = m.state := by
  obtain ⟨state, trace, journal, hm, hstate⟩ := m.step_machine
  rw [hm]
  exact hstate t h

@[simp] theorem step_program (m : Machine) : m.step.2.program = m.program := by
  obtain ⟨state, trace, journal, hm, -⟩ := m.step_machine
  rw [hm]

/-- What a step comes to does not depend on what has been noted. -/
theorem step_noted (m : Machine) (trace : Array String) (journal : Array Log.Entry) :
    ({ m with trace, journal } : Machine).step.1 = m.step.1 := by
  cases hi : m.current? with
  | none =>
    rw [step_of_halted hi, step_of_halted (m := { m with trace, journal }) hi]
  | some i =>
    rcases m.note_cases i with ⟨d, hn⟩ | ⟨t, j, hn⟩
    · have hn' : ({ m with trace, journal } : Machine).note i = .error d :=
        note_eq_error_iff.2 (note_eq_error_iff (m := m).1 hn)
      rw [step_of_note_error hi hn, step_of_note_error (m := { m with trace, journal }) hi hn']
    · -- Only the registers decide whether an instruction can be noted.
      rcases note_cases { m with trace, journal } i with ⟨d, hn'⟩ | ⟨t', j', hn'⟩
      · have : m.note i = .error d :=
          note_eq_error_iff.2 (note_eq_error_iff (m := { m with trace, journal }).1 hn')
        rw [hn] at this
        cases this
      · cases he : (Effect.execute m.settings.policy i.toOperation).run m.state with
        | ok u state =>
          rw [step_of_execute_ok hi hn he,
            step_of_execute_ok (m := { m with trace, journal }) hi hn' he]
        | error trouble state =>
          rw [step_of_execute_error hi hn he,
            step_of_execute_error (m := { m with trace, journal }) hi hn' he]

/-- A step at an action applies it. -/
theorem step_of_action {a : Action} (hi : m.current? = some i) (ha : i.action? = some a) :
    ∃ trace journal, m.step = match a.apply m.settings.policy m.state with
      | .ok state => (.ok none, { m with state, trace, journal })
      | .error trouble =>
        (.error (locate m.state.registers.pc i.line trouble), { m with trace, journal }) := by
  obtain ⟨trace, journal, hn⟩ : ∃ trace journal, m.note i = .ok { m with trace, journal } := by
    rcases m.note_cases i with ⟨d, hn⟩ | hn
    · obtain ⟨line, hline⟩ := traceLine_ok ha m.state.registers
      rw [(note_eq_error_iff.1 hn).2] at hline
      cases hline
    · exact hn
  refine ⟨trace, journal ++ m.notices i, ?_⟩
  have he := Effect.run_execute (s := m.state) m.settings.policy ha
  cases hs : a.apply m.settings.policy m.state with
  | ok state =>
    rw [hs] at he
    exact step_of_execute_ok hi hn he
  | error trouble =>
    rw [hs] at he
    exact step_of_execute_error hi hn he

theorem mem_of_current? (hi : m.current? = some i) : i ∈ m.program.instructions :=
  Program.mem_of_fetch? hi

/-- Behind a step that fails or applies an action, the state is as before or the action was
applied. -/
theorem step_state_cases
    (h : ∀ i, m.current? = some i → (∃ t, m.step.1 = .error t) ∨ ∃ a, i.action? = some a) :
    m.step.2.state = m.state ∨ ∃ i a, m.current? = some i ∧ i.action? = some a ∧
      a.apply m.settings.policy m.state = .ok m.step.2.state := by
  cases hi : m.current? with
  | none =>
    rw [step_of_halted hi]
    exact .inl rfl
  | some i =>
    rcases h i hi with ⟨t, ht⟩ | ⟨a, ha⟩
    · exact .inl (step_error_state ht)
    · obtain ⟨trace, journal, hm⟩ := step_of_action hi ha
      cases hs : a.apply m.settings.policy m.state with
      | ok state =>
        rw [hs] at hm
        rw [hm]
        exact .inr ⟨i, a, rfl, ha, hs⟩
      | error t =>
        rw [hs] at hm
        rw [hm]
        exact .inl rfl

end Machine
end MiniRisc
