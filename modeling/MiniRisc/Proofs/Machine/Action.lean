import MiniRisc.Machine.Basic
import MiniRisc.Proofs.Instruction.Action
/-! What an action does to a state, all at once, and that executing its operation does that. -/
namespace MiniRisc

def Arithmetic.result? : Arithmetic → Int → Int → Option Int
  | add, a, b => some (Word.add a b)
  | sub, a, b => some (Word.sub a b)
  | mul, a, b => some (Word.mul a b)
  | div, a, b => Word.div? a b
  | mod, a, b => Word.mod? a b
  | and, a, b => some (Word.and a b)
  | or, a, b => some (Word.or a b)
  | lsl, a, b => some (Word.shiftLeft a b)
  | lsr, a, b => some (Word.shiftRightLogical a b)
  | asr, a, b => some (Word.shiftRightArithmetic a b)

namespace State

def write (s : State) (r : Register) (value : Int) : State :=
  { s with registers := s.registers.write r value }

def flag (s : State) (flags : Bool × Bool) : State :=
  { s with registers := { s.registers with equal := flags.1, greater := flags.2 } }

def answer (s : State) (result : Int) (console : Console) : State :=
  { s with console }.write 0 result

def goto (s : State) (pc : Int) : State :=
  { s with registers := { s.registers with pc, steps := s.registers.steps + 1 } }

end State

namespace Action

def Source.value (rs : Registers) : Source → Int
  | register r => rs.value r
  | immediate modifier imm => Word.widen modifier imm

def Condition.holds (rs : Registers) : Condition → Bool
  | always => true
  | equal => rs.equal
  | greater => rs.greater

def address (rs : Registers) (base : Register) (displacement : Int) : Int :=
  Word.add (rs.value base) (Word.widen .signed displacement)

def behindAccess {α : Type} (access : Except Fault.Cause α) (state : α → State) :
    Except Trouble (State × Option Int) :=
  match access with
  | .ok a => .ok (state a, none)
  | .error cause => .error (.ofCause cause)

/-- What an action does, and the target if it branches. -/
def perform (policy : ServicePolicy) (s : State) : Action → Except Trouble (State × Option Int)
  | compute f rd rs1 source =>
    match f.result? (s.registers.value rs1) (source.value s.registers) with
    | some result => .ok (s.write rd result, none)
    | none => .error (.ofCause .divisionByZero)
  | compare rs1 source =>
    .ok (s.flag (Word.compare (s.registers.value rs1) (source.value s.registers)), none)
  | complement rd source => .ok (s.write rd (Word.not (source.value s.registers)), none)
  | move rd source => .ok (s.write rd (source.value s.registers), none)
  | load rd base displacement =>
    behindAccess (s.memory.read32 (address s.registers base displacement)) (s.write rd)
  | store rs base displacement =>
    behindAccess (s.memory.write32 (address s.registers base displacement) (s.registers.value rs))
      fun memory => { s with memory }
  | branch condition target =>
    .ok (s, if condition.holds s.registers then some target else none)
  | call target => .ok (s.write .link (s.registers.pc + 1), some target)
  | ret => .ok (s, some (s.registers.value .link))
  | idle => .ok (s, none)
  | serve =>
    match Service.call policy s.serviceNumber s.arguments s.console with
    | .ok (result, console) => .ok (s.answer result console, none)
    | .error trouble => .error trouble

def apply (policy : ServicePolicy) (s : State) (a : Action) : Except Trouble State :=
  match a.perform policy s with
  | .ok (s', target) => .ok (s'.goto (target.getD (s.registers.pc + 1)))
  | .error trouble => .error trouble

inductive Change (policy : ServicePolicy) (s : State) : Action → State → Prop
  | written {a : Action} {r : Register} (target : a.target? = some r) (value : Int) :
      Change policy s a (s.write r value)
  | flagged (rs1 : Register) (source : Source) :
      Change policy s (.compare rs1 source)
        (s.flag (Word.compare (s.registers.value rs1) (source.value s.registers)))
  | stored {rs base : Register} {displacement : Int} {memory : Memory}
      (write : s.memory.write32 (address s.registers base displacement) (s.registers.value rs) =
        .ok memory) :
      Change policy s (.store rs base displacement) { s with memory }
  | served {result : Int} {console : Console}
      (call : Service.call policy s.serviceNumber s.arguments s.console = .ok (result, console)) :
      Change policy s .serve (s.answer result console)
  | kept {a : Action} (target : a.target? = none) : Change policy s a s

theorem behindAccess_eq_ok_iff {α : Type} {access : Except Fault.Cause α} {state : α → State}
    {s : State} {target : Option Int} : behindAccess access state = .ok (s, target) ↔
      ∃ a, access = .ok a ∧ state a = s ∧ target = none := by
  cases access <;> simp [behindAccess, eq_comm]

theorem change_of_perform {policy : ServicePolicy} {s u : State} {a : Action}
    {target : Option Int} (h : a.perform policy s = .ok (u, target)) : Change policy s a u := by
  cases a with
  | compute f rd rs1 source =>
    rw [perform] at h
    split at h
    · cases h
      exact .written rfl _
    · cases h
  | compare rs1 source =>
    cases h
    exact .flagged rs1 source
  | complement | move | call =>
    cases h
    exact .written rfl _
  | load rd base displacement =>
    obtain ⟨value, -, rfl, -⟩ := behindAccess_eq_ok_iff.1 h
    exact .written rfl value
  | store rs base displacement =>
    obtain ⟨memory, hwrite, rfl, -⟩ := behindAccess_eq_ok_iff.1 h
    exact .stored hwrite
  | branch | ret | idle =>
    cases h
    exact .kept rfl
  | serve =>
    rw [perform] at h
    split at h
    · rename_i hcall
      cases h
      exact .served hcall
    · cases h

theorem apply_eq_error_iff {policy : ServicePolicy} {s : State} {a : Action} {t : Trouble} :
    a.apply policy s = .error t ↔ a.perform policy s = .error t := by
  rw [apply]
  cases a.perform policy s <;> simp

theorem apply_eq_ok_iff {policy : ServicePolicy} {s s' : State} {a : Action} :
    a.apply policy s = .ok s' ↔ ∃ u target, a.perform policy s = .ok (u, target) ∧
      s' = u.goto (target.getD (s.registers.pc + 1)) := by
  rw [apply]
  cases a.perform policy s with
  | error t => simp
  | ok result =>
    obtain ⟨u, target⟩ := result
    constructor
    · intro h
      exact ⟨u, target, rfl, (Except.ok.inj h).symm⟩
    · rintro ⟨_, _, h, rfl⟩
      cases h
      rfl

theorem change_of_apply {policy : ServicePolicy} {s s' : State} {a : Action}
    (h : a.apply policy s = .ok s') : ∃ u pc, Change policy s a u ∧ s' = u.goto pc := by
  obtain ⟨u, target, hp, hs⟩ := apply_eq_ok_iff.1 h
  exact ⟨u, _, change_of_perform hp, hs⟩

end Action

namespace Effect
variable {o : Operation} {s : State} (policy : ServicePolicy)

/-- The result of steps, which leave the state as it was if they fail. -/
def resultOf (s : State) {α : Type} : Except Trouble (State × α) → EStateM.Result Trouble State α
  | .ok (s', a) => .ok a s'
  | .error trouble => .error trouble s

theorem run_read (r : Register) : (read r.val).run s = .ok (s.registers.value r) s := by
  simp only [read, Registers.get, Registers.position?_val, EStateM.run_bind, EStateM.run_get]
  rfl

private theorem run_write (r : Register) (value : Int) :
    (write r.val value).run s = .ok () (s.write r value) := by
  simp only [write, Registers.set, Registers.position?_val, EStateM.run_bind, EStateM.run_get]
  rfl

private theorem run_source {source : Action.Source} (h : o.source? = some source) :
    (Effect.source o).run s = .ok (source.value s.registers) s := by
  rw [Operation.source?] at h
  split at h
  · rename_i himm
    obtain rfl := Option.some.inj h
    simp only [Effect.source, himm]
    rfl
  · rename_i number himm hrs2
    obtain ⟨r, hr, rfl⟩ := Option.map_eq_some_iff.1 h
    rw [Register.ofNumber?_eq_some_iff.1 hr] at hrs2
    simp only [Effect.source, himm, hrs2, run_read]
    rfl
  · cases h

private theorem run_address {base : Register} {displacement : Int} (hbase : o.rs1 = base.val)
    (himm : o.imm = some displacement) :
    (Effect.address o).run s = .ok (Action.address s.registers base displacement) s := by
  simp only [Effect.address, hbase, himm, EStateM.run_bind, run_read]
  rfl

private theorem run_compute {rd rs1 : Register} {source : Action.Source} {f : Arithmetic}
    {g : Int → Int → Option Int} (hrd : o.rd = rd.val) (hrs1 : o.rs1 = rs1.val)
    (hs : o.source? = some source) (hg : g = f.result?) :
    (perform.stay (compute o g)).run s =
      resultOf s ((Action.compute f rd rs1 source).perform policy s) := by
  subst hg
  simp only [perform.stay, compute, hrs1, EStateM.run_bind, run_read, run_source hs,
    Action.perform]
  cases f.result? (s.registers.value rs1) (source.value s.registers) with
  | none => rfl
  | some result =>
    simp only [hrd, run_write]
    rfl

private theorem run_load {rd base : Register} {displacement : Int} (hrd : o.rd = rd.val)
    (hbase : o.rs1 = base.val) (himm : o.imm = some displacement) :
    (perform.stay (load o)).run s =
      resultOf s ((Action.load rd base displacement).perform policy s) := by
  simp only [perform.stay, load, EStateM.run_bind, run_address hbase himm, EStateM.run_get,
    Action.perform]
  cases s.memory.read32 (Action.address s.registers base displacement) with
  | error cause => rfl
  | ok value =>
    simp only [access, EStateM.run_pure, hrd, run_write]
    rfl

private theorem run_store {rs base : Register} {displacement : Int} (hrs : o.rd = rs.val)
    (hbase : o.rs1 = base.val) (himm : o.imm = some displacement) :
    (perform.stay (store o)).run s =
      resultOf s ((Action.store rs base displacement).perform policy s) := by
  simp only [perform.stay, store, hrs, EStateM.run_bind, run_address hbase himm, EStateM.run_get,
    run_read, Action.perform]
  cases s.memory.write32 (Action.address s.registers base displacement)
    (s.registers.value rs) with
  | error cause => rfl
  | ok memory => rfl

private theorem run_serve :
    (perform.stay (serve policy)).run s = resultOf s (Action.serve.perform policy s) := by
  simp only [perform.stay, serve, EStateM.run_bind, EStateM.run_get, Action.perform]
  cases Service.call policy s.serviceNumber s.arguments s.console with
  | error trouble => rfl
  | ok answer => rfl

private theorem run_compare {rs1 : Register} {source : Action.Source} (hrs1 : o.rs1 = rs1.val)
    (hs : o.source? = some source) :
    (perform.stay (compare o)).run s =
      resultOf s ((Action.compare rs1 source).perform policy s) := by
  simp only [perform.stay, compare, hrs1, EStateM.run_bind, run_read, run_source hs]
  rfl

/-- Performing an operation does what its action does, or nothing if that fails. -/
theorem run_perform {a : Action} (h : o.action? = some a) :
    (perform policy o).run s = resultOf s (a.perform policy s) := by
  obtain ⟨rd, rs1, hrd, hrs1, ha⟩ := Operation.action?_eq_some_iff.1 h
  cases hop : o.op with
  | add | sub | mul | div | mod | and | or | lsl | lsr | asr =>
    rw [hop] at ha
    obtain ⟨source, hs, rfl⟩ := Option.map_eq_some_iff.1 ha
    rw [perform, hop]
    exact run_compute policy hrd hrs1 hs rfl
  | cmp =>
    rw [hop] at ha
    obtain ⟨source, hs, rfl⟩ := Option.map_eq_some_iff.1 ha
    rw [perform, hop]
    exact run_compare policy hrs1 hs
  | not | mov =>
    rw [hop] at ha
    obtain ⟨source, hs, rfl⟩ := Option.map_eq_some_iff.1 ha
    rw [perform, hop]
    simp only [perform.stay, EStateM.run_bind, run_source hs, hrd, run_write]
    rfl
  | ld =>
    rw [hop] at ha
    obtain ⟨displacement, himm, rfl⟩ := Option.map_eq_some_iff.1 ha
    rw [perform, hop]
    exact run_load policy hrd hrs1 himm
  | st =>
    rw [hop] at ha
    obtain ⟨displacement, himm, rfl⟩ := Option.map_eq_some_iff.1 ha
    rw [perform, hop]
    exact run_store policy hrd hrs1 himm
  | b | beq | bgt | call =>
    rw [hop] at ha
    obtain ⟨target, himm, rfl⟩ := Option.map_eq_some_iff.1 ha
    rw [perform, hop, himm]
    rfl
  | ret | nop =>
    rw [hop] at ha
    obtain rfl := Option.some.inj ha
    rw [perform, hop]
    rfl
  | sys =>
    rw [hop] at ha
    obtain rfl := Option.some.inj ha
    rw [perform, hop]
    exact run_serve policy

/-- Executing an operation is applying its action. -/
theorem run_execute {a : Action} (h : o.action? = some a) : (execute policy o).run s =
    match a.apply policy s with
    | .ok s' => .ok () s'
    | .error trouble => .error trouble s := by
  simp only [execute, EStateM.run_bind, EStateM.run_get, run_perform policy h, Action.apply]
  cases a.perform policy s with
  | error trouble => rfl
  | ok result => rfl

end Effect
end MiniRisc
