/-! The instruction set: operations, their operand shapes, and the modifiers that widen
immediate operands. -/
namespace MiniRisc

inductive Opcode
  | add | sub | mul | div | mod | cmp | and | or | not | mov | lsl | lsr | asr | nop | ld | st
  | beq | bgt | b | call | ret | sys
  deriving DecidableEq, Repr

/-- How an immediate of sixteen bits becomes a word: with its sign, with zeros above it, or
moved to the high half. -/
inductive Modifier
  | signed | unsigned | high
  deriving DecidableEq, Repr

/-- What an instruction is written with. A source is a register or an immediate. -/
inductive Shape
  /-- Two registers and a source. -/
  | three
  /-- A register and a source. -/
  | two
  /-- A register and a displaced base register. -/
  | address
  /-- A label. -/
  | branch
  /-- Nothing. -/
  | bare
  deriving DecidableEq, Repr

namespace Opcode

def all : List Opcode :=
  [add, sub, mul, div, mod, cmp, and, or, not, mov, lsl, lsr, asr, nop, ld, st, beq, bgt, b,
    call, ret, sys]

def number : Opcode → Nat
  | add => 0 | sub => 1 | mul => 2 | div => 3 | mod => 4 | cmp => 5 | and => 6 | or => 7
  | not => 8 | mov => 9 | lsl => 10 | lsr => 11 | asr => 12 | nop => 13 | ld => 14 | st => 15
  | beq => 16 | bgt => 17 | b => 18 | call => 19 | ret => 20 | sys => 21

def mnemonic : Opcode → String
  | add => "add" | sub => "sub" | mul => "mul" | div => "div" | mod => "mod" | cmp => "cmp"
  | and => "and" | or => "or" | not => "not" | mov => "mov" | lsl => "lsl" | lsr => "lsr"
  | asr => "asr" | nop => "nop" | ld => "ld" | st => "st" | beq => "beq" | bgt => "bgt"
  | b => "b" | call => "call" | ret => "ret" | sys => "sys"

def shape : Opcode → Shape
  | add | sub | mul | div | mod | and | or | lsl | lsr | asr => .three
  | cmp | not | mov => .two
  | ld | st => .address
  | beq | bgt | b | call => .branch
  | nop | ret | sys => .bare

/-- Whether a modifier may follow the mnemonic; shifts take none. -/
def modifiable : Opcode → Bool
  | add | sub | mul | div | mod | cmp | and | or | not | mov => true
  | _ => false

def ofNumber? (number : Nat) : Option Opcode := all[number]?

def ofMnemonic? (word : String) : Option Opcode := all.find? (·.mnemonic == word)

theorem ofNumber?_number (op : Opcode) : ofNumber? op.number = some op := by cases op <;> rfl

theorem number_lt (op : Opcode) : op.number < 22 := by cases op <;> decide

theorem ofNumber?_eq_none_iff {n : Nat} : ofNumber? n = none ↔ 22 ≤ n := by
  rw [ofNumber?, List.getElem?_eq_none_iff]; rfl

theorem number_of_ofNumber? {n : Nat} {op : Opcode} (h : ofNumber? n = some op) :
    op.number = n := by
  have hn : n < 22 := by
    rcases Nat.lt_or_ge n 22 with h22 | h22
    · exact h22
    · simp [ofNumber?_eq_none_iff.2 h22] at h
  have table : ∀ k : Fin 22, (ofNumber? k).map number = some k.val := by decide
  have := table ⟨n, hn⟩
  simpa [h] using this

private theorem ofMnemonic?_mnemonic (op : Opcode) : ofMnemonic? op.mnemonic = some op := by
  cases op <;> decide

theorem ofMnemonic?_eq_some_iff {word : String} {op : Opcode} :
    ofMnemonic? word = some op ↔ word = op.mnemonic := by
  refine ⟨fun h => ?_, fun h => h ▸ ofMnemonic?_mnemonic op⟩
  have := List.find?_some h
  simpa using (beq_iff_eq.1 this).symm

end Opcode

namespace Modifier

def suffix : Modifier → String
  | signed => "" | unsigned => "u" | high => "h"

def number : Modifier → Nat
  | signed => 0 | unsigned => 1 | high => 2

def ofNumber? : Nat → Option Modifier
  | 0 => some signed | 1 => some unsigned | 2 => some high | _ => none

theorem ofNumber?_number (m : Modifier) : ofNumber? m.number = some m := by cases m <;> rfl

end Modifier
end MiniRisc
