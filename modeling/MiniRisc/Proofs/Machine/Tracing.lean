import MiniRisc.Proofs.Machine.Next
/-! Tracing observes and does not interfere. A machine that traces does what it does without, and
its trace has one line for each instruction that it has begun to execute. -/
namespace MiniRisc

namespace Machine
variable {m u : Machine}

def traced (m : Machine) (on : Bool) : Machine := { m with tracing := on }

/-- Machines that differ in what they note alone. -/
structure Matches (m u : Machine) : Prop where
  program : u.program = m.program
  settings : u.settings = m.settings
  state : u.state = m.state

private theorem matches_traced (m : Machine) (on other : Bool) :
    (m.traced on).Matches (m.traced other) :=
  ⟨rfl, rfl, rfl⟩

namespace Matches

theorem halted (h : m.Matches u) : u.halted = m.halted := by
  unfold Machine.halted current?
  rw [h.program, h.state]

theorem step (made : m.program.Made) (h : m.Matches u) :
    u.step.1 = m.step.1 ∧ m.step.2.Matches u.step.2 := by
  obtain ⟨hresult, hstate⟩ := step_next made
  obtain ⟨hresult', hstate'⟩ := step_next (h.program ▸ made : u.program.Made)
  rw [h.program, h.settings, h.state] at hresult' hstate'
  refine ⟨hresult'.trans hresult.symm, ?_, ?_, hstate'.trans hstate.symm⟩
  · rw [step_program, step_program, h.program]
  · rw [step_settings, step_settings, h.settings]

theorem after (made : m.program.Made) (h : m.Matches u) (n : Nat) :
    (m.after n).Matches (u.after n) := by
  induction n generalizing m u with
  | zero => exact h
  | succ n ih => exact ih (made_step made) (h.step made).2

theorem runFor (made : m.program.Made) (h : m.Matches u) (n : Nat) :
    (u.runFor n).1 = (m.runFor n).1 ∧ (m.runFor n).2.Matches (u.runFor n).2 := by
  have hstep (m u : Machine) (h : m.program.Made ∧ m.Matches u) :
      u.step.1 = m.step.1 ∧ m.step.2.program.Made ∧ m.step.2.Matches u.step.2 := by
    obtain ⟨made, h⟩ := h
    obtain ⟨hresult, hnext⟩ := h.step made
    exact ⟨hresult, made_step made, hnext⟩
  obtain ⟨hresult, -, hmatches⟩ := runFor_same (fun _ _ h => h.2.halted) hstep ⟨made, h⟩ n
  exact ⟨hresult, hmatches⟩

end Matches

/-- A line that traces the instruction before a machine: where it stands, the instruction, and the
registers. -/
def Traces (m : Machine) (line : String) : Prop :=
  ∃ i text, m.current? = some i ∧ i.render = .ok text ∧
    line = Text.padLeft '0' 4 (Text.decimal m.state.registers.pc) ++ ": " ++
      Text.padRight 24 text ++ " " ++ m.state.registers.summary

/-- Whether a step begins to execute an instruction: the instruction succeeds or has a fault. -/
def enters (m : Machine) : Bool :=
  match m.step.1 with
  | .ok none => true
  | .ok (some _) => false
  | .error (.fault _) => true
  | .error (.defect _) => false

private theorem traces_of_traceLine {i : Instruction} {line : String} (hi : m.current? = some i)
    (h : traceLine m.state.registers i = .ok line) : m.Traces line := by
  obtain ⟨text, ht, hline⟩ := Outcome.bind_eq_ok_iff.1 h
  exact ⟨i, text, hi, ht, (Except.ok.inj hline).symm⟩

/-- An action is noted by its line, and begun. -/
private theorem trace_step_of_action {i : Instruction} {a : Action}
    (hb : m.state.console.Binary) (on : m.tracing = true) (hi : m.current? = some i)
    (ha : i.action? = some a) :
    m.enters = true ∧ ∃ line, m.Traces line ∧ m.step.2.trace = m.trace.push line := by
  obtain ⟨line, hline⟩ := traceLine_ok ha m.state.registers
  have hn : m.note i = .ok { m with
      trace := m.trace.push line
      journal := m.journal ++ [(⟨.machine, .debug, line⟩ : Log.Entry)] } := by
    rw [note, if_pos on, hline]
    rfl
  have he := Effect.run_execute (s := m.state) m.settings.policy ha
  cases hs : a.apply m.settings.policy m.state with
  | ok state =>
    rw [hs] at he
    have hstep := step_of_execute_ok hi hn he
    exact ⟨by simp [enters, hstep], line, traces_of_traceLine hi hline, by rw [hstep]⟩
  | error t =>
    rw [hs] at he
    have hstep := step_of_execute_error hi hn he
    refine ⟨?_, line, traces_of_traceLine hi hline, by rw [hstep]⟩
    rcases Action.perform_error (Action.apply_eq_error_iff.1 hs) with ⟨c, rfl⟩ | ⟨ht, -⟩ | ⟨ht, -⟩
    · simp [enters, hstep, locate, Trouble.ofCause]
    · exact absurd ht hb.1
    · exact absurd ht hb.2

/-- A step that begins to execute an instruction adds its line to the trace, and no other does. -/
theorem trace_step (made : m.program.Made) (hb : m.state.console.Binary) (on : m.tracing = true) :
    (m.enters = true ∧ ∃ line, m.Traces line ∧ m.step.2.trace = m.trace.push line) ∨
      (m.enters = false ∧ m.step.2.trace = m.trace) := by
  cases hi : m.current? with
  | none =>
    have hstep := step_of_halted hi
    exact .inr ⟨by simp [enters, hstep], by rw [hstep]⟩
  | some i =>
    rcases made.instruction_cases (mem_of_current? hi) with ⟨a, ha⟩ | ⟨⟨word, hd⟩, hl⟩
    · exact .inl (trace_step_of_action hb on hi ha)
    · -- Such an instruction has no text, so it is not even begun.
      have hn : m.note i = .error .missingOperand := by
        rw [note_eq_error_iff, traceLine, Instruction.render_of_lacks hd hl rfl]
        exact ⟨on, rfl⟩
      have hstep := step_of_note_error hi hn
      exact .inr ⟨by simp [enters, hstep], by rw [hstep]⟩

/-- Steps add a line to the trace for each machine among them that enters an instruction. -/
theorem trace_after (made : m.program.Made) (hb : m.state.console.Binary)
    (on : m.tracing = true) (n : Nat) :
    ∃ lines, (m.after n).trace.toList = m.trace.toList ++ lines ∧
      List.Forall₂ Traces ((m.passed n).filter enters) lines := by
  induction n generalizing m with
  | zero => exact ⟨[], (List.append_nil _).symm, .nil⟩
  | succ n ih =>
    obtain ⟨lines, htrace, hlines⟩ :=
      ih (made_step made) (binary_of_made made hb) (m.step_tracing.trans on)
    rcases trace_step made hb on with ⟨henters, line, hline, hpush⟩ | ⟨henters, hkeep⟩
    · refine ⟨line :: lines, ?_, ?_⟩
      · rw [after, htrace, hpush, Array.toList_push, List.append_assoc, List.singleton_append]
      · rw [passed, List.filter_cons_of_pos henters]
        exact .cons hline hlines
    · refine ⟨lines, ?_, ?_⟩
      · rw [after, htrace, hkeep]
      · rwa [passed, List.filter_cons_of_neg (by simp [henters])]

/-- Tracing observes and does not interfere. With tracing on or off, a machine on streams of bytes
goes through the same states, and each step and each run comes to the same. With tracing on, its
trace grows by one line for each instruction that is begun, in order; the line is made of the
program counter, the instruction and the registers before it. -/
theorem tracing_unseen {m : Machine} (made : m.program.Made) (hb : m.state.console.Binary)
    (n : Nat) :
    (((m.traced false).after n).state = ((m.traced true).after n).state ∧
      ((m.traced false).after n).step.1 = ((m.traced true).after n).step.1) ∧
    (((m.traced false).runFor n).2.state = ((m.traced true).runFor n).2.state ∧
      ((m.traced false).runFor n).1 = ((m.traced true).runFor n).1) ∧
    (∃ lines, ((m.traced true).after n).trace.toList = m.trace.toList ++ lines ∧
      List.Forall₂ Traces (((m.traced true).passed n).filter enters) lines) ∧
    ∃ lines, ((m.traced true).runFor n).2.trace.toList = m.trace.toList ++ lines ∧
      List.Forall₂ Traces
        (((m.traced true).passed ((m.traced true).taken n)).filter enters) lines := by
  have hmade : (m.traced true).program.Made := made
  have hmatches := matches_traced m true false
  have hafter := hmatches.after hmade n
  obtain ⟨hresult, hrun⟩ := hmatches.runFor hmade n
  refine ⟨⟨hafter.state, (hafter.step (made_after hmade n)).1⟩, ⟨hrun.state, hresult⟩,
    trace_after hmade hb rfl n, ?_⟩
  rw [runFor_taken]
  exact trace_after hmade hb rfl _

def moveAndStray : Program where
  instructions := #[
    { op := .mov, rd := 1, imm := some 2, line := 1 },
    { op := .ld, rd := 2, rs1 := 1, imm := some 0, line := 2 }]

theorem ofSource_moveAndStray :
    Program.ofSource "mov r1, 2\nld r2, 0[r1]" = .ok moveAndStray := by
  cbv

theorem tracing_unseen_stray : Program.Made moveAndStray ∧
    (start moveAndStray {} {}).state.console.Binary ∧
    (((start moveAndStray {} {}).traced false).runFor 9).1 =
      .error (.fault ⟨.unaligned 2, 1, 2⟩) ∧
    (((start moveAndStray {} {}).traced true).runFor 9).2.trace.size = 2 := by
  have made : Program.Made moveAndStray := .inl ⟨_, ofSource_moveAndStray⟩
  have hb : (start moveAndStray {} {}).state.console.Binary := ⟨by decide, by decide⟩
  obtain ⟨-, ⟨-, hresult⟩, -, lines, htrace, hlines⟩ :=
    tracing_unseen (m := start moveAndStray {} {}) made hb 9
  refine ⟨made, hb, hresult.trans rfl, ?_⟩
  rw [← Array.length_toList, htrace, start, List.nil_append, ← hlines.length_eq]
  rfl

end Machine
end MiniRisc
