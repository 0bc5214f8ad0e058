import MiniRisc.Proofs.Machine.Invariant
/-! Machines whose programs do the same, one beside the other. Lines and labels of instructions
reach only the line of a fault and the text of a trace, so both go through the same states and stop
in the same way. -/
namespace MiniRisc

def Trouble.unlined : Trouble → Trouble
  | .fault f => .fault { f with line := 0 }
  | .defect d => .defect d

def Log.Entry.untraced (e : Entry) : Entry :=
  if e.origin = .machine ∧ e.level = .debug then { e with message := "" } else e

/-- Instructions that do the same both have a text, or neither has one for the same reason. -/
theorem Instruction.render_agree {i j : Instruction} (h : j.toOperation = i.toOperation) :
    (∃ d, i.render = .error d ∧ j.render = .error d) ∨
      ∃ text other, i.render = .ok text ∧ j.render = .ok other := by
  obtain ⟨o, line, label⟩ := i
  obtain ⟨o, line', label'⟩ := j
  obtain rfl : o = _ := h
  by_cases hs : o.op.shape = .branch
  · -- Only a branch is written with its label, and a branch fails on nothing but its registers.
    unfold render
    simp only [hs]
    cases registerName o.rd with
    | error d => exact .inl ⟨d, rfl, rfl⟩
    | ok target => exact .inr ⟨_, _, rfl, rfl⟩
  · have hsame : render ⟨o, line', label'⟩ = render ⟨o, line, label⟩ := by
      unfold render
      cases hshape : o.op.shape with
      | branch => exact absurd hshape hs
      | _ => rfl
    rw [hsame]
    cases hr : render ⟨o, line, label⟩ with
    | error d => exact .inl ⟨d, rfl, rfl⟩
    | ok text => exact .inr ⟨text, text, rfl, rfl⟩

namespace Machine
variable {m u : Machine} {i j : Instruction}

/-- Machines that hold the same and whose programs do the same, and that have noted the same up to
the text of instructions. -/
structure Twin (m u : Machine) : Prop where
  operations : u.program.operations = m.program.operations
  settings : u.settings = m.settings
  state : u.state = m.state
  tracing : u.tracing = m.tracing
  trace : u.trace.size = m.trace.size
  journal : u.journal.map Log.Entry.untraced = m.journal.map Log.Entry.untraced

/-- Results of twins: the same outcome up to the line of a fault, and twins again. -/
structure Alike {α : Type} (r s : Except Trouble α × Machine) : Prop where
  outcome : s.1.mapError Trouble.unlined = r.1.mapError Trouble.unlined
  machine : Twin r.2 s.2

theorem Twin.of_program (m : Machine) {q : Program} (h : q.operations = m.program.operations) :
    Twin m { m with program := q } :=
  ⟨h, rfl, rfl, rfl, rfl, rfl⟩

namespace Twin

theorem symm (h : Twin m u) : Twin u m :=
  ⟨h.operations.symm, h.settings.symm, h.state.symm, h.tracing.symm, h.trace.symm, h.journal.symm⟩

private theorem with_state (h : Twin m u) (state : State) :
    Twin { m with state } { u with state } :=
  ⟨h.operations, h.settings, rfl, h.tracing, h.trace, h.journal⟩

theorem log (h : Twin m u) {entries others : List Log.Entry}
    (he : others.map Log.Entry.untraced = entries.map Log.Entry.untraced) :
    Twin (m.log entries) (u.log others) where
  operations := h.operations
  settings := h.settings
  state := h.state
  tracing := h.tracing
  trace := h.trace
  journal := by
    apply Array.toList_inj.1
    have hjournal := congrArg Array.toList h.journal
    simp only [Array.toList_map] at hjournal
    simp [Machine.log, hjournal, he]

/-- Twins may trace an instruction by different texts. -/
theorem traced (h : Twin m u) (line other : String) :
    Twin { m.log [⟨.machine, .debug, line⟩] with trace := m.trace.push line }
      { u.log [⟨.machine, .debug, other⟩] with trace := u.trace.push other } := by
  have hlog : Twin (m.log [⟨.machine, .debug, line⟩]) (u.log [⟨.machine, .debug, other⟩]) :=
    h.log rfl
  exact ⟨h.operations, h.settings, h.state, h.tracing, by simp [h.trace], hlog.journal⟩

/-- Twins have the same operation before them, if any. -/
theorem current? (h : Twin m u) :
    u.current?.map (·.toOperation) = m.current?.map (·.toOperation) := by
  have hget := congrArg (fun l : List Operation => l[m.state.registers.pc.toNat]?) h.operations
  simp only [Program.operations, List.getElem?_map, Array.getElem?_toList] at hget
  unfold Machine.current? Program.fetch?
  rw [h.state]
  split
  · exact hget
  · rfl

private theorem current_none (h : Twin m u) (hi : m.current? = none) : u.current? = none := by
  have hu := h.current?
  rwa [hi, Option.map_none, Option.map_eq_none_iff] at hu

private theorem current_some (h : Twin m u) (hi : m.current? = some i) :
    ∃ j, u.current? = some j ∧ j.toOperation = i.toOperation := by
  have hu := h.current?
  rwa [hi, Option.map_some, Option.map_eq_some_iff] at hu

theorem halted (h : Twin m u) : u.halted = m.halted := by
  have hsome : u.current?.isSome = m.current?.isSome := by
    simpa using congrArg Option.isSome h.current?
  unfold Machine.halted
  rw [← Option.not_isSome, ← Option.not_isSome, hsome]

theorem notices (h : Twin m u) (hj : j.toOperation = i.toOperation) :
    u.notices j = m.notices i := by
  unfold Machine.notices
  rw [h.settings, h.state, show j.op = i.op from congrArg Operation.op hj]

/-- Twins note the same operation, or cannot for the same reason. -/
theorem note (h : Twin m u) (hj : j.toOperation = i.toOperation) :
    (∃ d, m.note i = .error d ∧ u.note j = .error d) ∨
      ∃ noted other, m.note i = .ok noted ∧ u.note j = .ok other ∧ Twin noted other := by
  unfold Machine.note
  rw [h.tracing]
  split
  · unfold traceLine
    rcases Instruction.render_agree hj with ⟨d, hi, hj⟩ | ⟨text, other, hi, hj⟩
    · rw [hi, hj]
      exact .inl ⟨d, rfl, rfl⟩
    · rw [hi, hj]
      exact .inr ⟨_, _, rfl, rfl, h.traced _ _⟩
  · exact .inr ⟨m, u, rfl, rfl, h⟩

private theorem unlined_locate (pc line other : Int) (t : Trouble) :
    (locate pc other t).unlined = (locate pc line t).unlined := by
  cases t <;> rfl

/-- A step of twins. -/
theorem step (h : Twin m u) : Alike m.step u.step := by
  cases hi : m.current? with
  | none =>
    rw [step_of_halted hi, step_of_halted (h.current_none hi)]
    exact ⟨rfl, h⟩
  | some i =>
    obtain ⟨j, hj, hop⟩ := h.current_some hi
    unfold Machine.step
    rw [hi, hj]
    rcases h.note hop with ⟨d, hm, hu⟩ | ⟨noted, other, hm, hu, htwin⟩
    · simp only [hm, hu]
      exact ⟨rfl, h⟩
    · simp only [hm, hu, h.settings, h.state, hop, h.notices hop]
      have hlogged : Twin (noted.log (m.notices i)) (other.log (m.notices i)) := htwin.log rfl
      cases (Effect.execute m.settings.policy i.toOperation).run m.state with
      | ok _ state => exact ⟨rfl, hlogged.with_state state⟩
      | error t state =>
        exact ⟨congrArg Except.error (unlined_locate _ _ _ t), hlogged.with_state state⟩

/-- Twins are twins after any number of steps. -/
theorem after (h : Twin m u) (n : Nat) : Twin (m.after n) (u.after n) := by
  induction n generalizing m u with
  | zero => exact h
  | succ n ih => exact ih h.step.machine

end Twin

section Results
variable {α : Type} {r s : Except Trouble α × Machine}

theorem Alike.symm (h : Alike r s) : Alike s r :=
  ⟨h.outcome.symm, h.machine.symm⟩

/-- Results that are alike are both outcomes or both failures. -/
theorem Alike.cases (h : Alike r s) : (∃ a, r.1 = .ok a ∧ s.1 = .ok a) ∨
    ∃ t t', r.1 = .error t ∧ s.1 = .error t' ∧ t'.unlined = t.unlined := by
  obtain ⟨r, m⟩ := r
  obtain ⟨s, u⟩ := s
  have ho := h.outcome
  cases r with
  | ok a =>
    cases s with
    | ok b => exact .inl ⟨a, rfl, congrArg Except.ok (Except.ok.inj ho)⟩
    | error t' => cases ho
  | error t =>
    cases s with
    | ok b => cases ho
    | error t' => exact .inr ⟨t, t', rfl, rfl, Except.error.inj ho⟩

end Results

/-- A run of twins. -/
theorem Twin.runFor (h : Twin m u) (n : Nat) : Alike (m.runFor n) (u.runFor n) := by
  obtain ⟨houtcome, hmachine⟩ := runFor_related (fun _ _ h => h.halted)
    (fun _ _ h => ⟨h.step.outcome, h.step.machine⟩) h n
  exact ⟨houtcome, hmachine⟩

/-- How a run ends, with a limit on the instructions since the start or without one. A run without
a limit ends where some number of instructions halts the machine or comes to one that fails. -/
inductive Ends (m : Machine) : Option Int → Except Trouble Stop × Machine → Prop
  | limited (limit : Int) : m.Ends (some limit) (m.runTo limit)
  | unlimited (n : Nat) (stopped : (m.runFor n).1 ≠ .ok .limitReached) : m.Ends none (m.runFor n)

private theorem runFor_stopped {n : Nat} (h : (m.runFor n).1 ≠ .ok .limitReached) (k : Nat) :
    m.runFor (n + k) = m.runFor n := by
  induction n generalizing m with
  | zero =>
    have hm : m.halted = true := by
      cases hm : m.halted with
      | true => rfl
      | false => exact absurd (by simp [Machine.runFor, hm]) h
    cases k with
    | zero => rfl
    | succ k => simp [Machine.runFor, hm]
  | succ n ih =>
    rw [Nat.succ_add]
    unfold Machine.runFor at h ⊢
    split
    · rfl
    · rename_i hm
      rw [if_neg hm] at h
      cases hs : m.step with
      | mk result next =>
        rw [hs] at h
        cases result with
        | error t => rfl
        | ok stop => exact ih h

/-- A run ends in at most one way. -/
theorem Ends.unique {limit : Option Int} {r s : Except Trouble Stop × Machine}
    (hr : m.Ends limit r) (hs : m.Ends limit s) : r = s := by
  cases hr with
  | limited limit =>
    cases hs with
    | limited => rfl
  | unlimited n hn =>
    cases hs with
    | unlimited k hk => rw [← runFor_stopped hn k, Nat.add_comm, runFor_stopped hk n]

/-- Where a run of a machine ends, the run of its twin ends alike. -/
theorem Twin.ends (h : Twin m u) {limit : Option Int} {r : Except Trouble Stop × Machine}
    (hr : m.Ends limit r) : ∃ s, u.Ends limit s ∧ Alike r s := by
  cases hr with
  | limited limit =>
    refine ⟨u.runTo limit, .limited limit, ?_⟩
    unfold runTo
    rw [h.state]
    exact h.runFor _
  | unlimited n stopped =>
    have halike := h.runFor n
    refine ⟨u.runFor n, .unlimited n ?_, halike⟩
    rcases halike.cases with ⟨stop, hm, hu⟩ | ⟨t, t', hm, hu, -⟩
    · rwa [hu, ← hm]
    · rw [hu]
      simp

end Machine
end MiniRisc
