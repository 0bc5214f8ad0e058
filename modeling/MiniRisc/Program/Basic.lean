import MiniRisc.Instruction.Basic
import MiniRisc.Text.Digits
/-! Programs: instructions in order, with the labels that were defined among them. -/
namespace MiniRisc

/-- Labels with the indices of the instructions they stand before, in the order of definition. -/
abbrev LabelTable := List (String × Nat)

structure Program where
  instructions : Array Instruction
  labels : LabelTable := []
  deriving Repr

namespace Program

def size (p : Program) : Nat := p.instructions.size

/-- The instruction that a program counter points at, if it points into the program. -/
def fetch? (p : Program) (pc : Int) : Option Instruction :=
  if 0 ≤ pc then p.instructions[pc.toNat]? else none

/-- The instruction at an index, which counts from the end if it is negative. -/
def get? (p : Program) (index : Int) : Option Instruction :=
  p.fetch? (if index < 0 then p.size + index else index)

def operations (p : Program) : List Operation := p.instructions.toList.map (·.toOperation)

/-- Programs are equal if they do the same. -/
def sameOperations (p q : Program) : Bool := p.operations == q.operations

def summary (p : Program) : String :=
  "Program(" ++ Text.decimal p.size ++ " instructions, " ++ Text.decimal p.labels.length ++
    " labels)"

theorem fetch?_eq_none_iff {p : Program} {pc : Int} :
    p.fetch? pc = none ↔ ¬ (0 ≤ pc ∧ pc < p.size) := by
  unfold fetch? size
  split
  · rw [Array.getElem?_eq_none_iff]; omega
  · simp; omega

theorem mem_of_fetch? {p : Program} {pc : Int} {i : Instruction} (h : p.fetch? pc = some i) :
    i ∈ p.instructions := by
  unfold fetch? at h
  split at h
  · exact Array.mem_of_getElem? h
  · cases h

end Program
end MiniRisc
