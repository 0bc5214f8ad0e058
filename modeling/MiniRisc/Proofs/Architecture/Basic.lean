import MiniRisc.Machine.Console
import MiniRisc.Machine.Settings
import MiniRisc.Proofs.Instruction.Action
/-! The architecture as its manual has it: registers are vectors of 32 bits, memory holds bytes,
and an action either leads to one state or is refused. -/
namespace MiniRisc

/-- The result of arithmetic on bits, which division by zero does not have. Division rounds toward
zero, and shifts count the low five bits of the amount. -/
def Arithmetic.denote : Arithmetic → BitVec 32 → BitVec 32 → Option (BitVec 32)
  | add, x, y => some (x + y)
  | sub, x, y => some (x - y)
  | mul, x, y => some (x * y)
  | div, x, y => if y = 0#32 then none else some (x.sdiv y)
  | mod, x, y => if y = 0#32 then none else some (x.srem y)
  | and, x, y => some (x &&& y)
  | or, x, y => some (x ||| y)
  | lsl, x, y => some (x <<< (y.setWidth 5).toNat)
  | lsr, x, y => some (x >>> (y.setWidth 5).toNat)
  | asr, x, y => some (x.sshiftRight (y.setWidth 5).toNat)

namespace Architecture

/-- A state, with the number of steps so far. Memory has addresses below its size. -/
structure State where
  registers : Register → BitVec 32
  equal : Bool
  greater : Bool
  pc : Int
  steps : Nat
  size : Nat
  memory : Nat → BitVec 8
  console : Console

namespace State

def write (s : State) (r : Register) (x : BitVec 32) : State :=
  { s with registers := fun other => if other = r then x else s.registers other }

def goto (s : State) (pc : Int) : State := { s with pc, steps := s.steps + 1 }

def next (s : State) : State := s.goto (s.pc + 1)

def word (s : State) (address : Nat) : BitVec 32 :=
  s.memory (address + 3) ++ s.memory (address + 2) ++ s.memory (address + 1) ++ s.memory address

def store (s : State) (address : Nat) (x : BitVec 32) : State :=
  { s with memory := fun k =>
      if address ≤ k ∧ k < address + 4 then x.extractLsb' (8 * (k - address)) 8 else s.memory k }

def Holds (s : State) (address : BitVec 32) : Prop :=
  0 ≤ address.toInt ∧ address.toNat % 4 = 0 ∧ address.toNat + 4 ≤ s.size

instance (s : State) (address : BitVec 32) : Decidable (s.Holds address) :=
  inferInstanceAs (Decidable (_ ∧ _ ∧ _))

def getByte (s : State) : State :=
  match s.console.input with
  | .stream (some b :: rest) =>
    { s with console.input := .stream rest }.write 0 (b.toBitVec.setWidth 32)
  | .stream (none :: rest) => { s with console.input := .stream rest }.write 0 (-1)
  | _ => s.write 0 (-1)

def putByte (s : State) : State :=
  let byte := (s.registers 1).setWidth 8
  let collected := s.console.written.push (.ofBitVec byte)
  match s.console.output with
  | .stream next behind =>
    let output := .stream next.tail behind
    match next.headD behind with
    | .collected =>
      { s with console := { s.console with output, written := collected } }.write 0
        (byte.setWidth 32)
    | .refused => { s with console := { s.console with output } }.write 0 (-1)
    | .failedLate =>
      { s with console := { s.console with output, written := collected } }.write 0 (-1)
  | .text => s.write 0 (-1)

def serve (policy : ServicePolicy) (s : State) : Option State :=
  if s.registers 0 = 0 then some s.getByte
  else if s.registers 0 = 1 then some s.putByte
  else
    match policy with
    | .refuse => none
    | .answer => some (s.write 0 (-1))

def source (s : State) : Action.Source → BitVec 32
  | .register r => s.registers r
  | .immediate .signed imm => (BitVec.ofInt 16 imm).signExtend 32
  | .immediate .unsigned imm => (BitVec.ofInt 16 imm).setWidth 32
  | .immediate .high imm => BitVec.ofInt 16 imm ++ 0#16

def address (s : State) (base : Register) (displacement : Int) : BitVec 32 :=
  s.registers base + (BitVec.ofInt 16 displacement).signExtend 32

def holds (s : State) : Action.Condition → Bool
  | .always => true
  | .equal => s.equal
  | .greater => s.greater

end State

def step (policy : ServicePolicy) (s : State) : Action → Option State
  | .compute f rd rs1 source =>
    (f.denote (s.registers rs1) (s.source source)).map fun x => (s.write rd x).next
  | .compare rs1 source =>
    let x := s.registers rs1
    let y := s.source source
    some { s with equal := x == y, greater := y.slt x }.next
  | .complement rd source => some (s.write rd (~~~s.source source)).next
  | .move rd source => some (s.write rd (s.source source)).next
  | .load rd base displacement =>
    let address := s.address base displacement
    if s.Holds address then some (s.write rd (s.word address.toNat)).next else none
  | .store rs base displacement =>
    let address := s.address base displacement
    if s.Holds address then some (s.store address.toNat (s.registers rs)).next else none
  | .branch condition target => some (if s.holds condition then s.goto target else s.next)
  | .call target => some ((s.write .link (BitVec.ofInt 32 (s.pc + 1))).goto target)
  | .ret => some (s.goto (s.registers .link).toInt)
  | .idle => some s.next
  | .serve => (s.serve policy).map State.next

/-- What no action changes but those for it: registers but the target, the flags but for a
comparison, memory but for a store and the console but for a service. -/
structure Frame (a : Action) (s u : State) : Prop where
  registers : ∀ r, a.target? ≠ some r → u.registers r = s.registers r
  flags : (∀ rs1 source, a ≠ .compare rs1 source) → u.equal = s.equal ∧ u.greater = s.greater
  memory : (∀ rs base displacement, a ≠ .store rs base displacement) → u.memory = s.memory
  console : a ≠ .serve → u.console = s.console
  size : u.size = s.size
  steps : u.steps = s.steps + 1

namespace State
variable {s : State} {r other : Register} {x : BitVec 32}

private theorem write_other (h : some r ≠ some other) :
    (s.write r x).registers other = s.registers other :=
  if_neg fun e => h (congrArg some e.symm)

private theorem frame_write {a : Action} (target : a.target? = some r) (pc : Int) :
    Frame a s ((s.write r x).goto pc) where
  registers _ h := write_other (target ▸ h)
  flags _ := ⟨rfl, rfl⟩
  memory _ := rfl
  console _ := rfl
  size := rfl
  steps := rfl

private theorem frame_goto (a : Action) (pc : Int) : Frame a s (s.goto pc) where
  registers _ _ := rfl
  flags _ := ⟨rfl, rfl⟩
  memory _ := rfl
  console _ := rfl
  size := rfl
  steps := rfl

private theorem getByte_eq (s : State) :
    ∃ console x, s.getByte = State.write { s with console } 0 x := by
  rw [getByte]
  split
  · exact ⟨_, _, rfl⟩
  · exact ⟨_, _, rfl⟩
  · exact ⟨s.console, _, rfl⟩

private theorem putByte_eq (s : State) :
    ∃ console x, s.putByte = State.write { s with console } 0 x := by
  rw [putByte]
  split
  · dsimp only
    split
    · exact ⟨_, _, rfl⟩
    · exact ⟨_, _, rfl⟩
    · exact ⟨_, _, rfl⟩
  · exact ⟨s.console, _, rfl⟩

/-- A service changes the console and the register of its number. -/
theorem serve_cases {policy : ServicePolicy} {t : State} (h : s.serve policy = some t) :
    ∃ console x, t = State.write { s with console } 0 x := by
  unfold serve at h
  split at h
  · obtain rfl := Option.some.inj h
    exact s.getByte_eq
  · split at h
    · obtain rfl := Option.some.inj h
      exact s.putByte_eq
    · split at h
      · cases h
      · obtain rfl := Option.some.inj h
        exact ⟨s.console, _, rfl⟩

private theorem frame_serve (console : Console) :
    Frame .serve s (State.write { s with console } 0 x).next where
  registers _ h := write_other (s := { s with console }) h
  flags _ := ⟨rfl, rfl⟩
  memory _ := rfl
  console h := absurd rfl h
  size := rfl
  steps := rfl

end State

theorem step_frame {policy : ServicePolicy} {s u : State} {a : Action}
    (h : step policy s a = some u) : Frame a s u := by
  cases a with
  | compute f rd rs1 source =>
    obtain ⟨x, -, rfl⟩ := Option.map_eq_some_iff.1 h
    exact State.frame_write rfl _
  | complement | move | call =>
    obtain rfl := Option.some.inj h
    exact State.frame_write rfl _
  | compare rs1 source =>
    obtain rfl := Option.some.inj h
    exact {
      registers := fun _ _ => rfl
      flags := fun hne => absurd rfl (hne rs1 source)
      memory := fun _ => rfl
      console := fun _ => rfl
      size := rfl
      steps := rfl }
  | load rd base displacement =>
    simp only [step] at h
    split at h
    · obtain rfl := Option.some.inj h
      exact State.frame_write rfl _
    · cases h
  | store rs base displacement =>
    simp only [step] at h
    split at h
    · obtain rfl := Option.some.inj h
      exact {
        registers := fun _ _ => rfl
        flags := fun _ => ⟨rfl, rfl⟩
        memory := fun hne => absurd rfl (hne rs base displacement)
        console := fun _ => rfl
        size := rfl
        steps := rfl }
    · cases h
  | branch condition target =>
    obtain rfl := Option.some.inj h
    split
    · exact State.frame_goto _ _
    · exact State.frame_goto _ _
  | ret | idle =>
    obtain rfl := Option.some.inj h
    exact State.frame_goto _ _
  | serve =>
    obtain ⟨t, ht, rfl⟩ := Option.map_eq_some_iff.1 h
    obtain ⟨console, x, rfl⟩ := State.serve_cases ht
    exact State.frame_serve console

def fetch? (code : List Action) (pc : Int) : Option Action :=
  if 0 ≤ pc then code[pc.toNat]? else none

/-- The state a number of steps later, unless one of them is refused. Outside the program nothing
happens any more. -/
def run (policy : ServicePolicy) (code : List Action) : Nat → State → Option State
  | 0, s => some s
  | n + 1, s =>
    match fetch? code s.pc with
    | none => some s
    | some a => (step policy s a).bind (run policy code n)

end Architecture
end MiniRisc
