import MiniRisc.Machine.Fault
import MiniRisc.Word
/-! Memory of bytes. Words are read and written at addresses that are multiples of four, lowest
byte first. -/
namespace MiniRisc

structure Memory where
  bytes : Array UInt8
  deriving DecidableEq, Repr

namespace Memory

def ofSize (size : Nat) : Memory := ⟨.replicate size 0⟩

def sizeLimit : Nat := 2 ^ 63

def ofSize? (size : Nat) : Option Memory :=
  if size < sizeLimit then some (ofSize size) else none

def size (m : Memory) : Nat := m.bytes.size

/-- The byte at an address; outside it is zero. -/
def byte (m : Memory) (address : Nat) : UInt8 := m.bytes.getD address 0

/-- The address of a word, or why there is no word at it. -/
def wordAddress (m : Memory) (address : Int) : Except Fault.Cause Nat :=
  if address < 0 then .error (Fault.Cause.outOfRange address).raised
  else if address % 4 ≠ 0 then .error (Fault.Cause.unaligned address).raised
  else if m.size < address + 4 then .error (Fault.Cause.outOfRange address).raised
  else .ok address.toNat

def store (m : Memory) (address : Nat) : List UInt8 → Memory
  | [] => m
  | b :: rest => store ⟨m.bytes.setIfInBounds address b⟩ (address + 1) rest

def fetch (m : Memory) (address count : Nat) : List UInt8 :=
  (List.range' address count).map m.byte

def read32 (m : Memory) (address : Int) : Except Fault.Cause Int := do
  return Word.wrap (Word.ofBytes (m.fetch (← m.wordAddress address) 4))

def write32 (m : Memory) (address value : Int) : Except Fault.Cause Memory := do
  return m.store (← m.wordAddress address) (Word.bytes value)

def read8 (m : Memory) (address : Int) : Except Fault.Cause Nat :=
  if 0 ≤ address ∧ address < m.size then .ok (m.byte address.toNat).toNat
  else .error (Fault.Cause.outOfRange address).raised

def load (m : Memory) (data : List UInt8) (base : Int) : Except Fault.Cause Memory :=
  if base < 0 ∨ m.size < base + data.length then .error (Fault.Cause.outOfRange base).raised
  else .ok (m.store base.toNat data)

/-- A bound of a range; a negative one counts from the end, and none leaves the memory. -/
def bound (m : Memory) (position : Int) : Nat :=
  min (if position < 0 then position + m.size else position).toNat m.size

def slice (m : Memory) (start stop : Int) : List UInt8 :=
  m.fetch (m.bound start) (m.bound stop - m.bound start)

/-- The bytes from a start on, as many as asked for or up to the end. -/
def dump (m : Memory) (start : Int) (length : Option Int) : List UInt8 :=
  m.slice start (match length with
    | none => m.size
    | some n => start + n)

def nonzeroWords (m : Memory) : List (Nat × Int) :=
  (List.range (m.size / 4)).filterMap fun i =>
    let word := Word.wrap (Word.ofBytes (m.fetch (4 * i) 4))
    if word = 0 then none else some (4 * i, word)

theorem size_store (m : Memory) (address : Nat) (data : List UInt8) :
    (m.store address data).size = m.size := by
  induction data generalizing m address with
  | nil => rfl
  | cons b rest ih => rw [store, ih]; simp [size]

end Memory
end MiniRisc
