import MiniRisc.Proofs.Machine.Advance
import MiniRisc.Proofs.Machine.Tracing
/-! Sessions with a machine: any sequence of steps, runs, loads, resets and switches of tracing,
those that fail among them. What holds of a machine at its start holds throughout a session. -/
namespace MiniRisc

inductive Request
  | step
  | run (limit : Option Int)
  | load (data : List UInt8) (base : Int)
  | trace (on : Bool)
  | reset

/-- A machine, and the machines before each step that it has taken since its last start. -/
structure Session where
  machine : Machine
  past : List Machine := []

namespace Session

def start (p : Program) (settings : Settings) (console : Console) : Session :=
  { machine := .start p settings console }

def runFor (s : Session) (n : Nat) : Session :=
  ⟨(s.machine.runFor n).2, s.past ++ s.machine.passed (s.machine.taken n)⟩

/-- How a session answers a request. A step or a run that fails leaves the machine that it has
come to, and a run without a limit is answered if it stops. -/
inductive Answers (s : Session) : Request → Session → Prop
  | stepped : s.Answers .step ⟨s.machine.step.2, s.past ++ [s.machine]⟩
  | limited {asked : Option Int} {limit : Int} (h : s.machine.limit? asked = some limit) :
      s.Answers (.run asked) (s.runFor (limit - s.machine.state.registers.steps).toNat)
  | unlimited {asked : Option Int} {n : Nat} (h : s.machine.limit? asked = none)
      (stopped : (s.machine.runFor n).1 ≠ .ok .limitReached) :
      s.Answers (.run asked) (s.runFor n)
  | loaded {data : List UInt8} {base : Int} {machine : Machine}
      (load : s.machine.load data base = .ok machine) :
      s.Answers (.load data base) { s with machine }
  | refused {data : List UInt8} {base : Int} {cause : Fault.Cause}
      (load : s.machine.load data base = .error cause) : s.Answers (.load data base) s
  | traced (on : Bool) : s.Answers (.trace on) { s with machine := s.machine.traced on }
  | reset : s.Answers .reset { machine := s.machine.reset }

inductive Reaches : Session → List Request → Session → Prop
  | nil (s : Session) : Reaches s [] s
  | cons {s t u : Session} {request : Request} {rest : List Request}
      (answer : s.Answers request t) (later : Reaches t rest u) : Reaches s (request :: rest) u

/-- Every request is answered, but for a run without a limit that does not stop. -/
theorem answered_iff (s : Session) (request : Request) : (∃ t, s.Answers request t) ↔
    ∀ asked, request = .run asked → s.machine.limit? asked = none →
      ∃ n, (s.machine.runFor n).1 ≠ .ok .limitReached := by
  constructor
  · rintro ⟨t, h⟩ asked rfl hnone
    cases h with
    | limited h =>
      rw [hnone] at h
      cases h
    | @unlimited _ n _ stopped => exact ⟨n, stopped⟩
  · intro stops
    cases request with
    | step => exact ⟨_, .stepped⟩
    | run asked =>
      cases h : s.machine.limit? asked with
      | some limit => exact ⟨_, .limited h⟩
      | none =>
        obtain ⟨n, stopped⟩ := stops asked rfl h
        exact ⟨_, .unlimited h stopped⟩
    | load data base =>
      cases h : s.machine.load data base with
      | ok machine => exact ⟨_, .loaded h⟩
      | error cause => exact ⟨_, .refused h⟩
    | trace on => exact ⟨_, .traced on⟩
    | reset => exact ⟨_, .reset⟩

/-- The program counter is inside the program or right behind it, or where a return since the last
start found its link. -/
def Placed (s : Session) : Prop :=
  (0 ≤ s.machine.state.registers.pc ∧ s.machine.state.registers.pc ≤ s.machine.program.size) ∨
    ∃ m ∈ s.past, m.returns = true ∧ s.machine.state.registers.pc = m.state.registers.value .link

/-- What holds throughout the sessions with a program under settings. -/
structure Keeps (p : Program) (settings : Settings) (s : Session) : Prop where
  runs : s.machine.program = p
  under : s.machine.settings = settings
  registers : s.machine.state.InRange
  flags : s.machine.state.Exclusive
  memory : s.machine.state.memory.size = settings.memorySize
  steps : s.machine.state.registers.steps = s.past.countP Machine.advances
  place : (∀ i ∈ p.instructions, i.toOperation.WellFormed p.size) → s.Placed

section Preservation
variable {p : Program} {settings : Settings} {s : Session}

private theorem keeps_start (p : Program) (settings : Settings) (console : Console) :
    (start p settings console).Keeps p settings where
  runs := rfl
  under := rfl
  registers := fun r => by
    have hzero : (Machine.start p settings console).state.registers.value r = 0 := by
      simp [Machine.start, Registers.value]
    rw [start, hzero]
    decide
  flags := fun h => Bool.false_ne_true h.1
  memory := by simp [start, Machine.start, Memory.ofSize, Memory.size]
  steps := rfl
  place := fun _ => .inl ⟨Int.le_refl 0, Int.natCast_nonneg _⟩

namespace Keeps

/-- One more step, whatever it comes to. -/
theorem step (made : p.Made) (h : s.Keeps p settings) :
    Keeps p settings ⟨s.machine.step.2, s.past ++ [s.machine]⟩ := by
  have hmade : s.machine.program.Made := h.runs ▸ made
  refine ⟨?_, ?_, ?_, ?_, ?_, ?_, fun inside => ?_⟩
  · exact s.machine.step_program.trans h.runs
  · exact s.machine.step_settings.trans h.under
  · exact Machine.preserved_of_made hmade (fun _ _ hr => hr)
      (fun _ _ _ _ hchange hr => hchange.inRange hr) h.registers
  · exact Machine.preserved_of_made hmade (fun _ _ hs => hs)
      (fun _ _ _ _ hchange hs => hchange.exclusive hs) h.flags
  · exact (Machine.size_step hmade).trans h.memory
  · rw [Machine.steps_step hmade, h.steps, List.countP_append]
    cases hm : s.machine.advances <;> simp [hm]
  · rw [← h.runs] at inside
    unfold Placed
    rw [Machine.step_program]
    rcases Machine.place_step hmade inside with hpc | hpc | ⟨hreturns, hpc⟩
    · -- The program counter has stayed, so what was said of it still holds.
      rw [hpc]
      refine (h.place (h.runs ▸ inside)).imp_right ?_
      rintro ⟨m, hm, hreturns⟩
      exact ⟨m, List.mem_append_left _ hm, hreturns⟩
    · exact .inl hpc
    · exact .inr ⟨s.machine, by simp, hreturns, hpc⟩

theorem after (made : p.Made) (h : s.Keeps p settings) (n : Nat) :
    Keeps p settings ⟨s.machine.after n, s.past ++ s.machine.passed n⟩ := by
  induction n generalizing s with
  | zero =>
    rw [Machine.passed, List.append_nil]
    exact h
  | succ n ih =>
    have hrest := ih (h.step made)
    rwa [List.append_assoc, List.singleton_append] at hrest

theorem runFor (made : p.Made) (h : s.Keeps p settings) (n : Nat) :
    (s.runFor n).Keeps p settings := by
  rw [Session.runFor, Machine.runFor_taken]
  exact h.after made _

theorem load {machine : Machine} {data : List UInt8} {base : Int} (h : s.Keeps p settings)
    (hload : s.machine.load data base = .ok machine) : Keeps p settings { s with machine } := by
  obtain ⟨memory, hmemory, hmachine⟩ := Outcome.bind_eq_ok_iff.1 hload
  obtain rfl := Except.ok.inj hmachine
  exact ⟨h.runs, h.under, h.registers, h.flags, (Memory.size_load hmemory).trans h.memory,
    h.steps, h.place⟩

theorem reset (h : s.Keeps p settings) : Keeps p settings { machine := s.machine.reset } := by
  have hstart := keeps_start s.machine.program s.machine.settings s.machine.state.console
  exact ⟨h.runs, h.under, hstart.registers, hstart.flags, hstart.memory.trans (by rw [h.under]),
    hstart.steps, fun inside => hstart.place (h.runs.symm ▸ inside)⟩

/-- No request breaks what holds. -/
theorem answer {t : Session} {request : Request} (made : p.Made) (h : s.Keeps p settings)
    (ht : s.Answers request t) : t.Keeps p settings := by
  cases ht with
  | stepped => exact h.step made
  | limited | unlimited => exact h.runFor made _
  | loaded load => exact h.load load
  | refused => exact h
  | traced on => exact ⟨h.runs, h.under, h.registers, h.flags, h.memory, h.steps, h.place⟩
  | reset => exact h.reset

theorem reaches {t : Session} {requests : List Request} (made : p.Made)
    (h : s.Keeps p settings) (ht : s.Reaches requests t) : t.Keeps p settings := by
  induction ht with
  | nil => exact h
  | cons answer later ih => exact ih (h.answer made answer)

end Keeps

/-- Throughout every session with a program that the assembler or the image decoder has made, the
registers hold signed words, the memory holds as many bytes as it is set up with, one flag is set
at most, and the steps counted are those that have executed an instruction since the last start. A
step of a machine that has halted and a load that is refused change nothing. If the assembler has
made the program, the program counter is inside it or right behind it, or where a return found its
link. -/
theorem kept_throughout (made : p.Made) {console : Console} {requests : List Request}
    (h : (start p settings console).Reaches requests s) :
    (∀ r, Word.Fits (s.machine.state.registers.value r)) ∧
    s.machine.state.memory.size = settings.memorySize ∧
    (∀ address : Int, (∃ b ≤ 255, s.machine.state.memory.read8 address = .ok b) ↔
      0 ≤ address ∧ address < settings.memorySize) ∧
    ¬ (s.machine.state.registers.equal = true ∧ s.machine.state.registers.greater = true) ∧
    s.machine.state.registers.steps = s.past.countP Machine.advances ∧
    (s.machine.halted = true → ∀ t, s.Answers .step t → t.machine = s.machine) ∧
    (∀ data base cause, s.machine.load data base = .error cause →
      ∀ t, s.Answers (.load data base) t → t = s) ∧
    ∀ source, Program.ofSource source = .ok p → s.Placed := by
  have hs := (keeps_start p settings console).reaches made h
  refine ⟨hs.registers, hs.memory, fun address => ?_, hs.flags, hs.steps, fun halted t ht => ?_,
    fun data base cause hload t ht => ?_, fun source hp => ?_⟩
  · rw [← hs.memory, Memory.exists_read8_iff]
  · cases ht
    rw [Machine.step_of_halted (Option.isNone_iff_eq_none.1 halted)]
  · cases ht with
    | loaded load =>
      rw [hload] at load
      cases load
    | refused => rfl
  · exact hs.place fun i hi => (Program.ofSource_assembled hp i hi).wellFormed

end Preservation

def farReturn : Program where
  instructions := #[
    { op := .mov, rd := 15, imm := some 100, line := 1 },
    { op := .ret, line := 2 }]

private theorem ofSource_farReturn : Program.ofSource "mov r15, 100\nret" = .ok farReturn := by
  cbv

theorem kept_throughout_farReturn : Program.Made farReturn ∧
    ∃ s, (start farReturn { memorySize := 8 } {}).Reaches
        [.trace true, .load [1, 2] 7, .step, .reset, .run (some 1), .run none, .step] s ∧
      s.past.countP Machine.advances = 2 ∧
      ∃ m ∈ s.past, m.returns = true ∧ m.state.registers.value .link = 100 := by
  have made : Program.Made farReturn := .inl ⟨_, ofSource_farReturn⟩
  obtain ⟨s, hreach, hsteps, hpc, hsize⟩ :
      ∃ s, (start farReturn { memorySize := 8 } {}).Reaches
        [.trace true, .load [1, 2] 7, .step, .reset, .run (some 1), .run none, .step] s ∧
          s.machine.state.registers.steps = 2 ∧ s.machine.state.registers.pc = 100 ∧
            s.machine.program.size = 2 := by
    have stopped {m : Machine} {n : Nat} (h : (m.runFor n).1 = .ok .halted) :
        (m.runFor n).1 ≠ .ok .limitReached := by
      rw [h]
      simp
    exact ⟨_, .cons (.traced true) (.cons (.refused rfl) (.cons .stepped (.cons .reset
      (.cons (.limited rfl) (.cons (.unlimited (n := 9) rfl (stopped rfl))
        (.cons .stepped (.nil _))))))), rfl, rfl, rfl⟩
  obtain ⟨-, -, -, -, hcount, -, -, hplace⟩ := kept_throughout made hreach
  refine ⟨made, s, hreach, hcount.symm.trans hsteps, ?_⟩
  rcases hplace _ ofSource_farReturn with ⟨-, hinside⟩ | ⟨m, hm, hreturns, hlink⟩
  · rw [hpc, hsize] at hinside
    cases hinside
  · exact ⟨m, hm, hreturns, hlink.symm.trans hpc⟩

end Session
end MiniRisc
