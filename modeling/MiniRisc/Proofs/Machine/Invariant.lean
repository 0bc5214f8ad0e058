import MiniRisc.Proofs.Machine.Memory
import MiniRisc.Proofs.Machine.Service
import MiniRisc.Proofs.Machine.Step
import MiniRisc.Proofs.Word.Bits
/-! What no step of a machine breaks: registers hold signed words, streams of bytes stay such
streams, the memory keeps its size, and one flag is set at most. -/
namespace MiniRisc

def State.InRange (s : State) : Prop := ∀ r, Word.Fits (s.registers.value r)

/-- Flags of which one is set at most. -/
def State.Exclusive (s : State) : Prop :=
  ¬ (s.registers.equal = true ∧ s.registers.greater = true)

theorem State.InRange.write {s : State} (h : s.InRange) (r : Register) (value : Int) :
    (s.write r value).InRange := by
  intro other
  by_cases ho : r = other
  · subst ho
    rw [State.write, Registers.value_write]
    exact Word.fits_wrap value
  · rw [State.write, Registers.value_write_of_ne _ _ ho]
    exact h other

namespace Action

/-- Only services change the console, and they keep its streams binary. -/
theorem Change.binary {policy : ServicePolicy} {s u : State} {a : Action}
    (h : Change policy s a u) (hb : s.console.Binary) : u.console.Binary := by
  cases h with
  | served hcall => exact Service.call_binary hb hcall
  | written | flagged | stored | kept => exact hb

theorem Change.inRange {policy : ServicePolicy} {s u : State} {a : Action}
    (h : Change policy s a u) (hr : s.InRange) : u.InRange := by
  cases h with
  | written target value => exact hr.write _ value
  | flagged | stored | kept => exact hr
  | @served result console call =>
    have hconsole : ({ s with console } : State).InRange := hr
    exact hconsole.write 0 result

theorem Change.size {policy : ServicePolicy} {s u : State} {a : Action}
    (h : Change policy s a u) : u.memory.size = s.memory.size := by
  cases h with
  | stored write => exact Memory.size_write32 write
  | written | flagged | served | kept => rfl

/-- No action counts itself. -/
theorem Change.steps {policy : ServicePolicy} {s u : State} {a : Action}
    (h : Change policy s a u) : u.registers.steps = s.registers.steps := by
  cases h <;> rfl

/-- Only comparisons change the flags, and they set one at most. -/
theorem Change.exclusive {policy : ServicePolicy} {s u : State} {a : Action}
    (h : Change policy s a u) (hs : s.Exclusive) : u.Exclusive := by
  cases h with
  | flagged rs1 source =>
    rintro ⟨hequal, hgreater⟩
    have hlt := of_decide_eq_true hgreater
    rw [eq_of_beq hequal] at hlt
    exact Int.lt_irrefl _ hlt
  | written | stored | served | kept => exact hs

end Action

namespace Machine
variable {m : Machine}

/-- What actions preserve, a step that fails or applies an action preserves. -/
theorem preserved_by_step {P : State → Prop} (goto : ∀ s pc, P s → P (s.goto pc))
    (change : ∀ policy s a u, Action.Change policy s a u → P s → P u)
    (actions : ∀ i, m.current? = some i →
      (∃ t, m.step.1 = .error t) ∨ ∃ a, i.action? = some a)
    (h : P m.state) : P m.step.2.state := by
  rcases step_state_cases actions with hs | ⟨i, a, -, -, hs⟩
  · rw [hs]
    exact h
  · obtain ⟨u, pc, hchange, hs⟩ := Action.change_of_apply hs
    rw [hs]
    exact goto u pc (change _ _ _ _ hchange h)

theorem binary_step (hb : m.state.console.Binary)
    (actions : ∀ i, m.current? = some i →
      (∃ t, m.step.1 = .error t) ∨ ∃ a, i.action? = some a) : m.step.2.state.console.Binary :=
  preserved_by_step (P := fun s => s.console.Binary) (fun _ _ hb => hb)
    (fun _ _ _ _ hchange hb => hchange.binary hb) actions hb

/-- Machines that run a program of actions on streams of bytes. -/
structure Sound (m : Machine) : Prop where
  actions : ∀ i ∈ m.program.instructions, ∃ a, i.action? = some a
  binary : m.state.console.Binary

theorem Sound.current (h : m.Sound) (i : Instruction) (hi : m.current? = some i) :
    (∃ t, m.step.1 = .error t) ∨ ∃ a, i.action? = some a :=
  .inr (h.actions i (mem_of_current? hi))

theorem Sound.step (h : m.Sound) : m.step.2.Sound where
  actions := fun i hi => h.actions i (m.step_program ▸ hi)
  binary := binary_step h.binary h.current

theorem inRange_step (h : m.Sound) (hr : m.state.InRange) : m.step.2.state.InRange :=
  preserved_by_step (fun _ _ hr => hr) (fun _ _ _ _ hchange hr => hchange.inRange hr) h.current hr

/-- The machine after a number of steps, failed ones among them. -/
def after : Nat → Machine → Machine
  | 0, m => m
  | n + 1, m => after n m.step.2

/-- What every step preserves, any number of steps preserves. -/
theorem preserved_by_steps {P : Machine → Prop} (step : ∀ m, P m → P m.step.2) (h : P m) (n : Nat) :
    P (m.after n) := by
  induction n generalizing m with
  | zero => exact h
  | succ n ih => exact ih (step m h)

theorem Sound.after (h : m.Sound) (n : Nat) : (m.after n).Sound :=
  preserved_by_steps (fun _ h => h.step) h n

theorem after_program (m : Machine) (n : Nat) : (m.after n).program = m.program :=
  preserved_by_steps (P := fun u => u.program = m.program) (fun u h => u.step_program.trans h) rfl n

/-- Related machines stay related in runs, which come to the same but for what is blurred of their
troubles, if they halt together and every step keeps them so. -/
theorem runFor_related {R : Machine → Machine → Prop} {blur : Trouble → Trouble}
    (halted : ∀ m u, R m u → u.halted = m.halted)
    (step : ∀ m u, R m u →
      u.step.1.mapError blur = m.step.1.mapError blur ∧ R m.step.2 u.step.2)
    {m u : Machine} (h : R m u) (n : Nat) :
    (u.runFor n).1.mapError blur = (m.runFor n).1.mapError blur ∧
      R (m.runFor n).2 (u.runFor n).2 := by
  induction n generalizing m u with
  | zero =>
    unfold runFor
    rw [halted m u h]
    exact ⟨rfl, h⟩
  | succ n ih =>
    unfold runFor
    rw [halted m u h]
    split
    · exact ⟨rfl, h⟩
    · obtain ⟨hresult, hnext⟩ := step m u h
      generalize m.step = r, u.step = s at hresult hnext
      obtain ⟨result, m⟩ := r
      obtain ⟨other, u⟩ := s
      cases result with
      | ok stop =>
        cases other with
        | ok _ => exact ih hnext
        | error _ => cases hresult
      | error t =>
        cases other with
        | ok _ => cases hresult
        | error _ => exact ⟨congrArg Except.error (Except.error.inj hresult), hnext⟩

/-- Related machines come to the same in runs if every step of theirs comes to the same. -/
theorem runFor_same {R : Machine → Machine → Prop}
    (halted : ∀ m u, R m u → u.halted = m.halted)
    (step : ∀ m u, R m u → u.step.1 = m.step.1 ∧ R m.step.2 u.step.2)
    {m u : Machine} (h : R m u) (n : Nat) :
    (u.runFor n).1 = (m.runFor n).1 ∧ R (m.runFor n).2 (u.runFor n).2 := by
  have hid {α : Type} (r : Except Trouble α) : r.mapError id = r := by cases r <;> rfl
  have hstep (m u : Machine) (h : R m u) :
      u.step.1.mapError id = m.step.1.mapError id ∧ R m.step.2 u.step.2 :=
    ⟨congrArg (Except.mapError id) (step m u h).1, (step m u h).2⟩
  obtain ⟨hresult, hmachine⟩ := runFor_related halted hstep h n
  rw [hid, hid] at hresult
  exact ⟨hresult, hmachine⟩

def after? : Nat → Machine → Option Machine
  | 0, m => some m
  | n + 1, m =>
    match m.step with
    | (.ok _, m) => after? n m
    | (.error _, _) => none

end Machine
end MiniRisc
