import MiniRisc.Proofs.Machine.Advance
/-! Calls and returns. A call writes the link register and nothing else, and until the link register
is written again a return goes on behind the call. -/
namespace MiniRisc

def Opcode.overwrites : Opcode → Bool
  | .add | .sub | .mul | .div | .mod | .and | .or | .not | .mov | .lsl | .lsr | .asr | .ld => true
  | .cmp | .nop | .st | .beq | .bgt | .b | .call | .ret | .sys => false

namespace Operation
variable {o : Operation} {a : Action}

/-- Apart from operations that write the register `rd`, only calls write a register, the link, and
services, the first one. -/
theorem target_cases (ha : o.action? = some a) {r : Register} (hr : a.target? = some r) :
    (o.op.overwrites = true ∧ o.rd = r.val) ∨ (o.op = .call ∧ r = .link) ∨
      (o.op = .sys ∧ r = 0) := by
  obtain ⟨rd, rs1, hrd, -, hof⟩ := action?_eq_some_iff.1 ha
  cases hop : o.op with
  | call =>
    rw [hop] at hof
    obtain ⟨imm, -, rfl⟩ := Option.map_eq_some_iff.1 hof
    exact .inr (.inl ⟨rfl, (Option.some.inj hr).symm⟩)
  | sys =>
    rw [hop] at hof
    obtain rfl := Option.some.inj hof
    exact .inr (.inr ⟨rfl, (Option.some.inj hr).symm⟩)
  | ret | nop =>
    rw [hop] at hof
    obtain rfl := Option.some.inj hof
    cases hr
  | cmp | st | b | beq | bgt =>
    rw [hop] at hof
    obtain ⟨_, -, rfl⟩ := Option.map_eq_some_iff.1 hof
    cases hr
  | _ =>
    rw [hop] at hof
    obtain ⟨_, -, rfl⟩ := Option.map_eq_some_iff.1 hof
    obtain rfl := Option.some.inj hr
    exact .inl ⟨rfl, hrd⟩

/-- The action of a call goes to its immediate. -/
theorem action?_of_call (ha : o.action? = some a) (hop : o.op = .call) :
    ∃ target, o.imm = some target ∧ a = .call target := by
  obtain ⟨rd, rs1, -, -, hof⟩ := action?_eq_some_iff.1 ha
  rw [hop] at hof
  obtain ⟨target, himm, rfl⟩ := Option.map_eq_some_iff.1 hof
  exact ⟨target, himm, rfl⟩

private theorem action?_of_ret (ha : o.action? = some a) (hop : o.op = .ret) : a = .ret := by
  obtain ⟨rd, rs1, -, -, hof⟩ := action?_eq_some_iff.1 ha
  rw [hop] at hof
  exact (Option.some.inj hof).symm

end Operation

namespace Machine
variable {m : Machine}

def calls (m : Machine) : Bool := m.advances && m.current?.map (·.op) = some .call

/-- Whether a step executes an instruction that writes the link register as its `rd`. -/
def relinks (m : Machine) : Bool :=
  m.advances && m.current?.any fun i => i.op.overwrites && i.rd = (Register.link.val : Int)

/-- A call puts the index behind it in the link register and goes to its immediate. -/
theorem step_of_calls (made : m.program.Made) (h : m.calls = true) :
    ∃ i target, m.current? = some i ∧ i.imm = some target ∧
      m.step.2.state = (m.state.write .link (m.state.registers.pc + 1)).goto target := by
  obtain ⟨hm, hcall⟩ := Bool.and_eq_true_iff.1 h
  rcases advance_cases made with ⟨-, i, a, u, target, hi, ha, hperform, hstate⟩ | ⟨hm', -⟩
  · have hop : i.op = .call := by simpa [hi] using hcall
    obtain ⟨target, himm, rfl⟩ := Operation.action?_of_call ha hop
    cases hperform
    exact ⟨i, target, hi, himm, hstate⟩
  · rw [hm'] at hm
    cases hm

/-- A return goes where the link register says. -/
theorem pc_of_returns (made : m.program.Made) (h : m.returns = true) :
    m.step.2.state.registers.pc = m.state.registers.value .link := by
  obtain ⟨hm, hret⟩ := Bool.and_eq_true_iff.1 h
  rcases advance_cases made with ⟨-, i, a, u, target, hi, ha, hperform, hstate⟩ | ⟨hm', -⟩
  · have hop : i.op = .ret := by simpa [hi] using hret
    obtain rfl := Operation.action?_of_ret ha hop
    cases hperform
    rw [hstate]
    rfl
  · rw [hm'] at hm
    cases hm

/-- Steps that neither call nor write the link register as their `rd` leave it as it is. -/
theorem link_step (made : m.program.Made) (hcalls : m.calls = false)
    (hrelinks : m.relinks = false) :
    m.step.2.state.registers.value .link = m.state.registers.value .link := by
  rcases advance_cases made with ⟨hm, i, a, u, target, hi, ha, hperform, hstate⟩ | ⟨-, hstate⟩
  · have hother {r : Register} (hr : a.target? = some r) : r ≠ .link := by
      rintro rfl
      rcases Operation.target_cases ha hr with ⟨hop, hrd⟩ | ⟨hop, -⟩ | ⟨-, hzero⟩
      · simp [relinks, hm, hi, hop, hrd] at hrelinks
      · simp [calls, hm, hi, hop] at hcalls
      · cases hzero
    have hu : u.registers.value .link = m.state.registers.value .link := by
      cases Action.change_of_perform hperform with
      | written target value => exact Registers.value_write_of_ne _ _ (hother target)
      | served call => exact Registers.value_write_of_ne _ _ (by decide)
      | flagged | stored | kept => rfl
    rw [hstate]
    exact hu
  · rw [hstate]

private theorem link_after (made : m.program.Made) (n : Nat)
    (quiet : ∀ u ∈ m.passed n, u.calls = false ∧ u.relinks = false) :
    (m.after n).state.registers.value .link = m.state.registers.value .link := by
  induction n generalizing m with
  | zero => rfl
  | succ n ih =>
    obtain ⟨⟨hcalls, hrelinks⟩, hrest⟩ := List.forall_mem_cons.1 quiet
    exact (ih (made_step made) hrest).trans (link_step made hcalls hrelinks)

/-- Where a call goes on, all registers but the link, the flags and the memory are as they were
before it. If no instruction from there on calls or writes the link register as its `rd`, the next
return goes on right behind the call. -/
theorem call_returns (made : m.program.Made) (small : m.program.size < 2 ^ 31)
    (call : m.calls = true) :
    (∃ i target, m.current? = some i ∧ i.imm = some target ∧
      m.step.2.state.registers.pc = target ∧
      (∀ r, r ≠ .link → m.step.2.state.registers.value r = m.state.registers.value r) ∧
      m.step.2.state.registers.equal = m.state.registers.equal ∧
      m.step.2.state.registers.greater = m.state.registers.greater ∧
      m.step.2.state.memory = m.state.memory) ∧
    ∀ n, (∀ u ∈ m.step.2.passed n, u.calls = false ∧ u.relinks = false) →
      (m.step.2.after n).returns = true →
      (m.step.2.after n).step.2.state.registers.pc = m.state.registers.pc + 1 := by
  obtain ⟨i, target, hi, himm, hstate⟩ := step_of_calls made call
  refine ⟨⟨i, target, hi, himm, ?_⟩, fun n quiet ret => ?_⟩
  · rw [hstate]
    exact ⟨rfl, fun r hr => Registers.value_write_of_ne _ _ hr.symm, rfl, rfl, rfl⟩
  · have hpc := pc_of_current? hi
    calc (m.step.2.after n).step.2.state.registers.pc
        = (m.step.2.after n).state.registers.value .link :=
          pc_of_returns (made_after (made_step made) n) ret
      _ = m.step.2.state.registers.value .link := link_after (made_step made) n quiet
      _ = Word.wrap (m.state.registers.pc + 1) := by
          rw [hstate]
          exact Registers.value_write ..
      _ = m.state.registers.pc + 1 := Word.wrap_of_fits (by omega) (by omega)

/-- A program whose callee stores and compares its link before it returns. -/
def linkStored : Program where
  instructions := #[
    { op := .call, imm := some 2, line := 1, label := some "f" },
    { op := .b, imm := some 5, line := 2, label := some "end" },
    { op := .st, rd := 15, rs1 := 1, imm := some 0, line := 3 },
    { op := .cmp, rs1 := 15, imm := some 1, line := 4 },
    { op := .ret, line := 5 }]
  labels := [("f", 2), ("end", 5)]

private theorem ofSource_linkStored :
    Program.ofSource "call f\nb end\nf: st r15, 0[r1]\ncmp r15, 1\nret\nend:" =
      .ok linkStored := by
  cbv

def beforeCall : Machine := start linkStored { memorySize := 4 } {}

theorem call_returns_linkStored : Program.Made linkStored ∧ linkStored.size < 2 ^ 31 ∧
    beforeCall.calls = true ∧
    (∀ u ∈ beforeCall.step.2.passed 2, u.calls = false ∧ u.relinks = false) ∧
    (beforeCall.step.2.after 2).returns = true ∧
    (beforeCall.step.2.after 2).step.2.state.registers.pc = 1 := by
  have made : Program.Made linkStored := .inl ⟨_, ofSource_linkStored⟩
  have small : linkStored.size < 2 ^ 31 := by decide
  have call : beforeCall.calls = true := rfl
  have quiet : ∀ u ∈ beforeCall.step.2.passed 2, u.calls = false ∧ u.relinks = false := by
    simp only [passed, List.forall_mem_cons]
    exact ⟨⟨rfl, rfl⟩, ⟨rfl, rfl⟩, List.forall_mem_nil _⟩
  have ret : (beforeCall.step.2.after 2).returns = true := rfl
  exact ⟨made, small, call, quiet, ret, (call_returns made small call).2 2 quiet ret⟩

end Machine
end MiniRisc
