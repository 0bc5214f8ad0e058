import MiniRisc.Proofs.Instruction.Form
/-! Operations as actions with their operands. An action has the fields that it uses and no
others, and every operation of its shape is one. -/
namespace MiniRisc

inductive Arithmetic
  | add | sub | mul | div | mod | and | or | lsl | lsr | asr
  deriving DecidableEq

namespace Action

inductive Source
  | register (r : Register)
  | immediate (modifier : Modifier) (imm : Int)

inductive Condition
  | always | equal | greater

end Action

inductive Action
  | compute (f : Arithmetic) (rd rs1 : Register) (source : Action.Source)
  | compare (rs1 : Register) (source : Action.Source)
  | complement (rd : Register) (source : Action.Source)
  | move (rd : Register) (source : Action.Source)
  | load (rd base : Register) (displacement : Int)
  | store (rs base : Register) (displacement : Int)
  | branch (condition : Action.Condition) (target : Int)
  | call (target : Int)
  | ret
  | idle
  | serve

namespace Action

def ofOpcode? (rd rs1 : Register) (source : Option Source) (imm : Option Int) :
    Opcode → Option Action
  | .add => source.map (compute .add rd rs1)
  | .sub => source.map (compute .sub rd rs1)
  | .mul => source.map (compute .mul rd rs1)
  | .div => source.map (compute .div rd rs1)
  | .mod => source.map (compute .mod rd rs1)
  | .and => source.map (compute .and rd rs1)
  | .or => source.map (compute .or rd rs1)
  | .lsl => source.map (compute .lsl rd rs1)
  | .lsr => source.map (compute .lsr rd rs1)
  | .asr => source.map (compute .asr rd rs1)
  | .cmp => source.map (compare rs1)
  | .not => source.map (complement rd)
  | .mov => source.map (move rd)
  | .ld => imm.map (load rd rs1)
  | .st => imm.map (store rd rs1)
  | .b => imm.map (branch .always)
  | .beq => imm.map (branch .equal)
  | .bgt => imm.map (branch .greater)
  | .call => imm.map call
  | .ret => some ret
  | .nop => some idle
  | .sys => some serve

def op : Action → Opcode
  | compute f _ _ _ =>
    match f with
    | .add => .add | .sub => .sub | .mul => .mul | .div => .div | .mod => .mod
    | .and => .and | .or => .or | .lsl => .lsl | .lsr => .lsr | .asr => .asr
  | compare _ _ => .cmp
  | complement _ _ => .not
  | move _ _ => .mov
  | load _ _ _ => .ld
  | store _ _ _ => .st
  | branch .always _ => .b
  | branch .equal _ => .beq
  | branch .greater _ => .bgt
  | call _ => .call
  | ret => .ret
  | idle => .nop
  | serve => .sys

def target? : Action → Option Register
  | compute _ rd _ _ | complement rd _ | move rd _ | load rd _ _ => some rd
  | call _ => some .link
  | serve => some 0
  | compare _ _ | store _ _ _ | branch _ _ | ret | idle => none

end Action

theorem Register.ofNumber?_eq_some_iff {number : Int} {r : Register} :
    Register.ofNumber? number = some r ↔ number = r.val := by
  constructor
  · intro h
    rw [Register.ofNumber?] at h
    split at h
    · rename_i hr
      obtain rfl := Option.some.inj h
      exact (Int.toNat_of_nonneg hr.1).symm
    · cases h
  · rintro rfl
    exact Register.ofNumber?_val r

namespace Operation

def source? (o : Operation) : Option Action.Source :=
  match o.imm, o.rs2 with
  | some imm, _ => some (.immediate o.modifier imm)
  | none, some number => (Register.ofNumber? number).map .register
  | none, none => none

def action? (o : Operation) : Option Action := do
  let rd ← Register.ofNumber? o.rd
  let rs1 ← Register.ofNumber? o.rs1
  Action.ofOpcode? rd rs1 o.source? o.imm o.op

theorem action?_eq_some_iff {o : Operation} {a : Action} : o.action? = some a ↔
    ∃ rd rs1 : Register, o.rd = rd.val ∧ o.rs1 = rs1.val ∧
      Action.ofOpcode? rd rs1 o.source? o.imm o.op = some a := by
  simp only [action?, Option.bind_eq_bind, Option.bind_eq_some_iff, Register.ofNumber?_eq_some_iff]
  constructor
  · rintro ⟨rd, hrd, rs1, hrs1, h⟩
    exact ⟨rd, rs1, hrd, hrs1, h⟩
  · rintro ⟨rd, rs1, hrd, hrs1, h⟩
    exact ⟨rd, hrd, rs1, hrs1, h⟩

/-- An action has the opcode of its operation. -/
theorem op_of_action? {o : Operation} {a : Action} (h : o.action? = some a) : a.op = o.op := by
  obtain ⟨rd, rs1, -, -, hof⟩ := action?_eq_some_iff.1 h
  cases hop : o.op with
  | ld | st | b | beq | bgt | call =>
    rw [hop] at hof
    obtain ⟨imm, -, rfl⟩ := Option.map_eq_some_iff.1 hof
    rfl
  | ret | nop | sys =>
    rw [hop] at hof
    obtain rfl := Option.some.inj hof
    rfl
  | _ =>
    rw [hop] at hof
    obtain ⟨source, -, rfl⟩ := Option.map_eq_some_iff.1 hof
    rfl

private theorem Shaped.source_isSome {o : Operation} (h : o.Shaped) (takes : o.op.takesSource) :
    ∃ source, o.source? = some source := by
  rcases h.source takes with ⟨number, hrs2, hn, himm⟩ | ⟨imm, himm, -, -⟩
  · obtain ⟨r, rfl⟩ := namesRegister_iff.1 hn
    exact ⟨.register r, by simp [source?, hrs2, himm, Register.ofNumber?_val]⟩
  · exact ⟨.immediate o.modifier imm, by simp [source?, himm]⟩

/-- Operations with the operands of their shape are actions. -/
theorem Shaped.action {o : Operation} (h : o.Shaped) : ∃ a, o.action? = some a := by
  obtain ⟨rd, hrd⟩ := namesRegister_iff.1 h.target
  obtain ⟨rs1, hrs1⟩ := namesRegister_iff.1 h.left
  suffices hof : ∃ a, Action.ofOpcode? rd rs1 o.source? o.imm o.op = some a by
    obtain ⟨a, ha⟩ := hof
    exact ⟨a, action?_eq_some_iff.2 ⟨rd, rs1, hrd, hrs1, ha⟩⟩
  have hsource := h.source_isSome
  have hdisplacement := h.displacement
  have hbranch := h.branch
  cases hop : o.op with
  | ld | st =>
    obtain ⟨imm, himm, -, -⟩ := hdisplacement (by rw [hop]; rfl)
    exact ⟨_, by rw [Action.ofOpcode?, himm, Option.map_some]⟩
  | b | beq | bgt | call =>
    obtain ⟨target, htarget⟩ := hbranch (by rw [hop]; rfl)
    exact ⟨_, by rw [Action.ofOpcode?, htarget, Option.map_some]⟩
  | ret | nop | sys => exact ⟨_, rfl⟩
  | _ =>
    obtain ⟨source, hs⟩ := hsource (by rw [hop]; rfl)
    exact ⟨_, by rw [Action.ofOpcode?, hs, Option.map_some]⟩

end Operation
end MiniRisc
