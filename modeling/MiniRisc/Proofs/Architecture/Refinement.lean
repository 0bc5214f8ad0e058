import MiniRisc.Proofs.Architecture.Abstraction
import MiniRisc.Proofs.Assembly.Form
/-! The machine refines the architecture: a step of the one stands for a step of the other, and so
does a run. -/
namespace MiniRisc
namespace Architecture
variable {s : MiniRisc.State}

private theorem source_inRange (h : s.InRange) (source : Action.Source) :
    Word.Fits (source.value s.registers) := by
  cases source with
  | register r => exact h r
  | immediate modifier imm => exact Word.fits_widen modifier imm

section Steps
variable {policy : ServicePolicy} {a : Action}

private theorem abstract_written (r : Register) (value : Int) :
    abstract ((s.write r value).goto (s.registers.pc + 1)) =
      ((abstract s).write r (Word.bits value)).next := by
  rw [abstract_goto, abstract_write]
  rfl

/-- Applying an action and abstracting is abstracting and taking a step of the architecture. -/
theorem abstract_apply (h : s.InRange) (hb : s.console.Binary) :
    (a.apply policy s).toOption.map abstract = step policy (abstract s) a := by
  cases a with
  | compute f rd rs1 source =>
    have hresult := abstract_result? f (h rs1) (source_inRange h source)
    rw [abstract_source] at hresult
    have hleft : (abstract s).registers rs1 = Word.bits (s.registers.value rs1) := rfl
    rw [step, hleft, ← hresult, Action.apply, Action.perform]
    cases f.result? (s.registers.value rs1) (source.value s.registers) with
    | none => rfl
    | some result => exact congrArg some (abstract_written rd result)
  | compare rs1 source =>
    have hcompare := Word.compare_eq (h rs1) (source_inRange h source)
    rw [abstract_source] at hcompare
    rw [Action.apply, Action.perform, hcompare]
    rfl
  | complement rd source =>
    rw [step, ← abstract_source, ← Word.bits_not]
    exact congrArg some (abstract_written rd _)
  | move rd source =>
    rw [step, ← abstract_source]
    exact congrArg some (abstract_written rd _)
  | load rd base displacement =>
    rw [Action.apply, Action.perform, abstract_address]
    by_cases ha : (abstract s).Holds ((abstract s).address base displacement)
    · obtain ⟨value, hread, hword⟩ := read32_of_holds ha
      simp only [step, ha, ↓reduceIte, hread, ← hword]
      exact congrArg some (abstract_written rd value)
    · obtain ⟨cause, hcause⟩ := wordAddress_of_not_holds ha
      simp only [step, ha, ↓reduceIte, Memory.read32, hcause]
      rfl
  | store rs base displacement =>
    rw [Action.apply, Action.perform, abstract_address]
    by_cases ha : (abstract s).Holds ((abstract s).address base displacement)
    · obtain ⟨memory, hwrite, hmemory⟩ := write32_of_holds (s.registers.value rs) ha
      simp only [step, ha, ↓reduceIte, hwrite]
      exact congrArg (fun u => some (u.goto (s.registers.pc + 1))) hmemory
    · obtain ⟨cause, hcause⟩ := wordAddress_of_not_holds ha
      simp only [step, ha, ↓reduceIte, Memory.write32, hcause]
      rfl
  | branch condition target =>
    rw [step, ← abstract_holds, Action.apply, Action.perform]
    cases condition.holds s.registers <;> rfl
  | call target =>
    rw [step, Action.apply, Action.perform]
    exact congrArg (fun u => some (u.goto target)) (abstract_write .link _)
  | ret =>
    have hlink : ((abstract s).registers .link).toInt = s.registers.value .link :=
      Word.toInt_bits (h .link)
    rw [step, hlink]
    rfl
  | idle => rfl
  | serve =>
    rw [step, ← call_refines (h 0) hb, Action.apply, Action.perform]
    cases Service.call policy s.serviceNumber s.arguments s.console with
    | error t => rfl
    | ok answer => rfl

end Steps

section Runs
variable {policy : ServicePolicy} {code : List Action} {u : State}

private theorem run_of_fetch_none (h : fetch? code u.pc = none) (n : Nat) :
    run policy code n u = some u := by
  cases n with
  | zero => rfl
  | succ n => rw [run, h]

private theorem run_of_fetch_some {a : Action} (h : fetch? code u.pc = some a) (n : Nat) :
    run policy code (n + 1) u = (step policy u a).bind (run policy code n) := by
  rw [run, h]

end Runs

end Architecture

namespace Program

/-- Whether actions are what the operations of a program mean. -/
def Means (p : Program) (code : List Action) : Prop :=
  p.operations.map Operation.action? = code.map some

private theorem exists_means {p : Program} (h : ∀ i ∈ p.instructions, i.toOperation.Shaped) :
    ∃ code, p.Means code := by
  have hops : ∀ o ∈ p.operations, ∃ a, o.action? = some a := by
    intro o ho
    obtain ⟨i, hi, rfl⟩ := List.mem_map.1 ho
    exact (h i (Array.mem_toList_iff.1 hi)).action
  unfold Means
  generalize p.operations = ops at hops
  induction ops with
  | nil => exact ⟨[], rfl⟩
  | cons o rest ih =>
    obtain ⟨a, ha⟩ := hops o (by simp)
    obtain ⟨code, hcode⟩ := ih fun o ho => hops o (List.mem_cons_of_mem _ ho)
    exact ⟨a :: code, by rw [List.map_cons, List.map_cons, ha, hcode]⟩

/-- The action at a program counter is the one of the instruction there. -/
theorem Means.fetch {p : Program} {code : List Action} (h : p.Means code) (pc : Int) :
    (Architecture.fetch? code pc).map some =
      (p.fetch? pc).map fun i => i.toOperation.action? := by
  have hget := congrArg (fun l : List (Option Action) => l[pc.toNat]?) h
  simp only [operations, List.map_map, List.getElem?_map, Array.getElem?_toList] at hget
  unfold Architecture.fetch? fetch?
  split
  · rw [← hget]
    rfl
  · rfl

private theorem Means.fetch_none {p : Program} {code : List Action} (h : p.Means code) {pc : Int}
    (hi : p.fetch? pc = none) : Architecture.fetch? code pc = none := by
  have hfetch := h.fetch pc
  rwa [hi, Option.map_none, Option.map_eq_none_iff] at hfetch

private theorem Means.fetch_some {p : Program} {code : List Action} (h : p.Means code) {pc : Int}
    {i : Instruction} (hi : p.fetch? pc = some i) :
    ∃ a, i.action? = some a ∧ Architecture.fetch? code pc = some a := by
  have hfetch := h.fetch pc
  rw [hi, Option.map_some, Option.map_eq_some_iff] at hfetch
  obtain ⟨a, hfetch, hsome⟩ := hfetch
  exact ⟨a, hsome.symm, hfetch⟩

end Program

namespace Machine
open Architecture
variable {m : Machine}

private theorem after?_of_step_ok {m' : Machine} {stop : Option Stop} (h : m.step = (.ok stop, m'))
    (n : Nat) : m.after? (n + 1) = m'.after? n := by
  rw [after?, h]

private theorem after?_of_step_error {m' : Machine} {t : Trouble} (h : m.step = (.error t, m'))
    (n : Nat) : m.after? (n + 1) = none := by
  rw [after?, h]

private theorem after?_refines {code : List Action} (hmeans : m.program.Means code)
    (hsound : m.Sound) (hrange : m.state.InRange) (n : Nat) :
    (m.after? n).map (fun m' => abstract m'.state) =
      run m.settings.policy code n (abstract m.state) := by
  -- Soundness and range carry the induction: the next step is one of the same kind.
  induction n generalizing m with
  | zero => rfl
  | succ n ih =>
    cases hi : m.current? with
    | none =>
      have hfetch : fetch? code (abstract m.state).pc = none := hmeans.fetch_none hi
      rw [after?_of_step_ok (step_of_halted hi), ih hmeans hsound hrange,
        run_of_fetch_none hfetch, run_of_fetch_none hfetch]
    | some i =>
      obtain ⟨a, ha, hcode⟩ := hmeans.fetch_some hi
      have hfetch : fetch? code (abstract m.state).pc = some a := hcode
      have hsound' := hsound.step
      have hrange' := inRange_step hsound hrange
      obtain ⟨trace, journal, hm⟩ := step_of_action hi ha
      rw [run_of_fetch_some hfetch, ← abstract_apply hrange hsound.binary]
      cases hs : a.apply m.settings.policy m.state with
      | ok state =>
        rw [hs] at hm
        rw [hm] at hsound' hrange'
        rw [after?_of_step_ok hm]
        exact ih (m := { m with state, trace, journal }) hmeans hsound' hrange'
      | error t =>
        rw [hs] at hm
        rw [after?_of_step_error hm]
        rfl

end Machine

/-- A program whose instructions have the operands of their shape means actions, and a machine that
runs it refines the architecture: after any number of steps it stands for the state that the
architecture comes to, and it has a fault where the architecture refuses an action. The
architecture changes nothing but what its actions are for. -/
theorem Program.machine_refines {p : Program} (h : ∀ i ∈ p.instructions, i.toOperation.Shaped) :
    (∃ code, p.Means code ∧
      ∀ m : Machine, m.program = p → m.state.InRange → m.state.console.Binary → ∀ n,
        (m.after? n).map (fun m' => Architecture.abstract m'.state) =
          Architecture.run m.settings.policy code n (Architecture.abstract m.state)) ∧
    ∀ policy s a u, Architecture.step policy s a = some u → Architecture.Frame a s u := by
  refine ⟨?_, fun policy s a u hs => Architecture.step_frame hs⟩
  obtain ⟨code, hmeans⟩ := exists_means h
  refine ⟨code, hmeans, ?_⟩
  rintro m rfl hrange hb n
  have hsound : m.Sound := ⟨fun i hi => (h i hi).action, hb⟩
  exact Machine.after?_refines hmeans hsound hrange n

theorem Program.machine_refines_countdown :
    (∀ i ∈ countdown.instructions, i.toOperation.Shaped) ∧
      (Machine.start countdown {} {}).state.InRange ∧
      ∃ code, countdown.Means code ∧
        ((Machine.start countdown {} {}).after? 6).map (fun m => Architecture.abstract m.state) =
          Architecture.run .refuse code 6
            (Architecture.abstract (Machine.start countdown {} {}).state) := by
  have hshaped : ∀ i ∈ countdown.instructions, i.toOperation.Shaped :=
    fun i hi => (ofSource_assembled ofSource_countdown i hi).wellFormed.toShaped
  have hrange : (Machine.start countdown {} {}).state.InRange := by
    intro r
    revert r
    decide
  obtain ⟨code, hmeans, hrun⟩ := (machine_refines hshaped).1
  refine ⟨hshaped, hrange, code, hmeans, ?_⟩
  exact hrun _ rfl hrange ⟨by decide, by decide⟩ 6

end MiniRisc
