import Mathlib.Data.List.Intervals
import MiniRisc.Proofs.Machine.Memory
/-! Memory as a plain array of bytes. Whatever is asked of a memory, one access after another, it
answers as the array does and holds the same bytes behind it. -/
namespace MiniRisc
namespace Memory

inductive Access
  | write32 (address value : Int)
  | load (data : List UInt8) (base : Int)
  | read32 (address : Int)
  | read8 (address : Int)
  | dump (start : Int) (length : Option Int)

inductive Answer
  | done
  | number (value : Int)
  | bytes (data : List UInt8)
  | refused (cause : Fault.Cause)

/-- Whether the words for a refusal can be written, which have the address in them. -/
def Access.Writable : Access → Prop
  | .write32 address _ | .load _ address | .read32 address | .read8 address =>
    address.natAbs < 10 ^ Text.digitLimit
  | .dump _ _ => True

/-- The answer with the cause that is raised for a refusal. -/
def Answer.raised : Answer → Answer
  | .refused cause => .refused cause.raised
  | answer => answer

def Answer.ofRead : Except Fault.Cause Int → Answer
  | .ok value => .number value
  | .error cause => .refused cause

def changed (m : Memory) : Except Fault.Cause Memory → Answer × Memory
  | .ok changed => (.done, changed)
  | .error cause => (.refused cause, m)

def answer (m : Memory) : Access → Answer × Memory
  | .write32 address value => m.changed (m.write32 address value)
  | .load data base => m.changed (m.load data base)
  | .read32 address => (.ofRead (m.read32 address), m)
  | .read8 address => (.ofRead ((m.read8 address).map Int.ofNat), m)
  | .dump start length => (.bytes (m.dump start length), m)

private theorem changed_of_refused {m : Memory} {change : Except Fault.Cause Memory}
    {cause : Fault.Cause}
    (h : (m.changed change).1 = .refused cause) : (m.changed change).2 = m := by
  cases change with
  | ok changed => cases h
  | error cause => rfl

private theorem answer_of_refused {m : Memory} {a : Access} {cause : Fault.Cause}
    (h : (m.answer a).1 = .refused cause) : (m.answer a).2 = m := by
  cases a with
  | write32 | load => exact changed_of_refused h
  | read32 | read8 | dump => rfl

def answers {σ : Type} (answer : σ → Access → Answer × σ) : σ → List Access → List Answer × σ
  | s, [] => ([], s)
  | s, a :: rest =>
    let (first, s) := answer s a
    let (others, s) := answers answer s rest
    (first :: others, s)

end Memory

/-- A plain array of bytes. -/
abbrev Cells (size : Nat) := Fin size → UInt8

namespace Cells
open Memory
variable {size : Nat}

def get (c : Cells size) (position : Nat) : UInt8 :=
  if h : position < size then c ⟨position, h⟩ else 0

def put (c : Cells size) (position : Nat) (data : List UInt8) : Cells size := fun i =>
  if position ≤ i then data[i - position]?.getD (c i) else c i

def littleEndian (value : Int) : List UInt8 :=
  (List.range 4).map fun k => .ofNat ((value % 2 ^ 32).toNat / 2 ^ (8 * k))

def unsigned (c : Cells size) (position : Nat) : Nat :=
  (c.get position).toNat + 2 ^ 8 * (c.get (position + 1)).toNat +
    2 ^ 16 * (c.get (position + 2)).toNat + 2 ^ 24 * (c.get (position + 3)).toNat

def signed (c : Cells size) (position : Nat) : Int :=
  if c.unsigned position < 2 ^ 31 then c.unsigned position else c.unsigned position - 2 ^ 32

def refusal? (size : Nat) (address : Int) : Option Fault.Cause :=
  if address < 0 then some (.outOfRange address)
  else if address % 4 ≠ 0 then some (.unaligned address)
  else if address + 4 > size then some (.outOfRange address)
  else none

/-- The position that a bound of a range stands for; a negative one counts from the end. -/
def position (size : Nat) (bound : Int) : Int := if bound < 0 then bound + size else bound

def answer (c : Cells size) : Access → Answer × Cells size
  | .write32 address value =>
    match refusal? size address with
    | some cause => (.refused cause, c)
    | none => (.done, c.put address.toNat (littleEndian value))
  | .load data base =>
    if 0 ≤ base ∧ base + data.length ≤ size then (.done, c.put base.toNat data)
    else (.refused (.outOfRange base), c)
  | .read32 address =>
    match refusal? size address with
    | some cause => (.refused cause, c)
    | none => (.number (c.signed address.toNat), c)
  | .read8 address =>
    if 0 ≤ address ∧ address < size then (.number (c.get address.toNat).toNat, c)
    else (.refused (.outOfRange address), c)
  | .dump start length =>
    let stop := match length with
      | none => (size : Int)
      | some n => start + n
    (.bytes (((List.finRange size).filter fun i =>
      position size start ≤ i.val ∧ (i.val : Int) < position size stop).map c), c)

/-- A memory that holds the bytes of an array. -/
structure Held (c : Cells size) (m : Memory) : Prop where
  extent : m.size = size
  bytes (i : Fin size) : m.byte i = c i

section Bytes
variable {c : Cells size} {m : Memory}

theorem Held.get (h : c.Held m) (position : Nat) : m.byte position = c.get position := by
  unfold Cells.get
  split
  · rename_i hlt
    exact h.bytes ⟨position, hlt⟩
  · rename_i hle
    have hsize := h.extent
    unfold Memory.size at hsize
    simp only [Memory.byte, Array.getD_eq_getD_getElem?]
    rw [Array.getElem?_eq_none (by omega)]
    rfl

private theorem held_ofSize (size : Nat) : Held (fun _ : Fin size => 0) (Memory.ofSize size) where
  extent := by simp [Memory.ofSize, Memory.size]
  bytes i := by simp [Memory.ofSize, Memory.byte, Array.getD_eq_getD_getElem?]

private theorem Held.put {position : Nat} {data : List UInt8} (h : c.Held m)
    (inside : position + data.length ≤ size) :
    (c.put position data).Held (m.store position data) where
  extent := (Memory.size_store m position data).trans h.extent
  bytes i := by
    rw [Memory.byte_store (h.extent ▸ inside), h.bytes i]
    rfl

private theorem bytes_eq_littleEndian (value : Int) : Word.bytes value = littleEndian value := by
  simp [Word.bytes, littleEndian, List.range_succ, Word.unsigned, Word.modulus]

/-- Four bytes are read as a word with its sign. -/
theorem Held.signed (h : c.Held m) (position : Nat) :
    Word.wrap (Word.ofBytes (m.fetch position 4)) = c.signed position := by
  have hbytes : Word.ofBytes (m.fetch position 4) = c.unsigned position := by
    simp only [Memory.fetch, List.range', List.map_cons, List.map_nil, Word.ofBytes,
      List.foldr_cons, List.foldr_nil, h.get, unsigned, Nat.add_assoc, Nat.reduceAdd]
    omega
  have hlt : c.unsigned position < 2 ^ 32 := by
    have hbyte (k : Nat) : (c.get k).toNat < 2 ^ 8 := (c.get k).toNat_lt
    have := hbyte position
    have := hbyte (position + 1)
    have := hbyte (position + 2)
    have := hbyte (position + 3)
    unfold unsigned
    omega
  rw [hbytes, Cells.signed, Word.wrap, Int.bmod_def, Word.modulus]
  split <;> split <;> omega

theorem Held.wordAddress (h : c.Held m) (address : Int) : m.wordAddress address =
    match refusal? size address with
    | some cause => .error cause.raised
    | none => .ok address.toNat := by
  unfold Memory.wordAddress refusal?
  rw [h.extent]
  split
  · rfl
  · split
    · rfl
    · split
      · rfl
      · rfl

/-- The positions between two bounds. -/
private theorem filter_range (start stop size : Nat) :
    (List.range size).filter (fun i => start ≤ i ∧ i < stop) =
      List.range' (min start size) (min stop size - min start size) := by
  have hand : (fun i => decide (start ≤ i ∧ i < stop)) =
      fun i => decide (start ≤ i) && decide (i < stop) := funext fun i => Bool.decide_and ..
  rw [hand, ← List.filter_filter, ← List.Ico.zero_bot, List.Ico.filter_lt, List.Ico.filter_le,
    List.Ico]
  rcases Nat.le_total start size with h | h
  · rw [Nat.min_eq_left h, Nat.zero_max, Nat.min_comm]
  · have hnone : min size stop - max 0 start = 0 := by omega
    have hnone' : min stop size - min start size = 0 := by omega
    rw [hnone, hnone']
    rfl

theorem Held.slice (h : c.Held m) (start stop : Int) :
    m.slice start stop = ((List.finRange size).filter fun i =>
      position size start ≤ i.val ∧ (i.val : Int) < position size stop).map c := by
  have hbound (bound : Int) : m.bound bound = min (position size bound).toNat size := by
    rw [Memory.bound, h.extent]
    rfl
  have hbetween (i : Nat) : (position size start ≤ i ∧ (i : Int) < position size stop) ↔
      ((position size start).toNat ≤ i ∧ i < (position size stop).toNat) := by omega
  rw [Memory.slice, Memory.fetch, hbound, hbound, ← filter_range,
    ← List.map_coe_finRange_eq_range, List.filter_map, List.map_map]
  simp only [hbetween]
  exact List.map_congr_left fun i _ => h.bytes i

end Bytes

section Accesses
variable {c : Cells size} {m : Memory}

private theorem raised_of_refusal {address : Int} {cause : Fault.Cause}
    (short : address.natAbs < 10 ^ Text.digitLimit) (h : refusal? size address = some cause) :
    cause.raised = cause := by
  obtain ⟨hrange, haligned⟩ := Memory.raised_of_writable (Text.isWritable_iff.2 short)
  unfold refusal? at h
  split at h
  · cases h
    exact hrange
  · split at h
    · cases h
      exact haligned
    · split at h
      · cases h
        exact hrange
      · cases h

/-- An array refuses for causes that are raised as they are, if the addresses can be written. -/
theorem raised_answer {a : Access} (h : a.Writable) : (c.answer a).1.raised = (c.answer a).1 := by
  cases a with
  | write32 address value | read32 address =>
    simp only [Cells.answer]
    cases hr : refusal? size address with
    | some cause => exact congrArg Answer.refused (raised_of_refusal h hr)
    | none => rfl
  | load data address | read8 address =>
    have hrange := (Memory.raised_of_writable (Text.isWritable_iff.2 h)).1
    rw [Cells.answer]
    split
    · rfl
    · exact congrArg Answer.refused hrange
  | dump start length => rfl

/-- An access is answered as the array answers it, and the memory holds the array behind it. -/
theorem Held.answer (h : c.Held m) (a : Access) :
    (m.answer a).1 = (c.answer a).1.raised ∧ (c.answer a).2.Held (m.answer a).2 := by
  cases a with
  | write32 address value =>
    have haddress := h.wordAddress address
    simp only [Memory.answer, Cells.answer, Memory.write32]
    cases hr : refusal? size address with
    | some cause =>
      rw [haddress, hr]
      exact ⟨rfl, h⟩
    | none =>
      rw [hr] at haddress
      obtain ⟨hneg, -, hhigh, -⟩ := Memory.wordAddress_eq_ok_iff.1 haddress
      rw [h.extent] at hhigh
      rw [haddress, ← bytes_eq_littleEndian]
      exact ⟨rfl, h.put (by rw [Word.length_bytes]; omega)⟩
  | load data base =>
    simp only [Memory.answer, Cells.answer, Memory.load, h.extent]
    by_cases inside : 0 ≤ base ∧ base + data.length ≤ size
    · have hnot : ¬ (base < 0 ∨ (size : Int) < base + data.length) := by omega
      rw [if_pos inside, if_neg hnot]
      exact ⟨rfl, h.put (by omega)⟩
    · have hout : base < 0 ∨ (size : Int) < base + data.length := by omega
      rw [if_neg inside, if_pos hout]
      exact ⟨rfl, h⟩
  | read32 address =>
    simp only [Memory.answer, Cells.answer, Memory.read32, h.wordAddress]
    cases refusal? size address with
    | some cause => exact ⟨rfl, h⟩
    | none => exact ⟨congrArg Answer.number (h.signed address.toNat), h⟩
  | read8 address =>
    simp only [Memory.answer, Cells.answer, Memory.read8, h.extent]
    by_cases inside : 0 ≤ address ∧ address < size
    · rw [if_pos inside, if_pos inside, h.get]
      exact ⟨rfl, h⟩
    · rw [if_neg inside, if_neg inside]
      exact ⟨rfl, h⟩
  | dump start length =>
    refine ⟨?_, h⟩
    cases length with
    | none =>
      have hall := h.slice start m.size
      rw [h.extent] at hall
      have hdump : m.dump start none = m.slice start size := by rw [← h.extent]; rfl
      exact congrArg Answer.bytes (hdump.trans hall)
    | some n => exact congrArg Answer.bytes (h.slice start (start + n))

theorem Held.answers (h : c.Held m) (accesses : List Access) :
    ((∀ a ∈ accesses, a.Writable) →
      (Memory.answers Memory.answer m accesses).1 = (Memory.answers Cells.answer c accesses).1) ∧
      (Memory.answers Cells.answer c accesses).2.Held
        (Memory.answers Memory.answer m accesses).2 := by
  induction accesses generalizing c m with
  | nil => exact ⟨fun _ => rfl, h⟩
  | cons a rest ih =>
    obtain ⟨hfirst, hheld⟩ := h.answer a
    obtain ⟨hothers, hrest⟩ := ih hheld
    refine ⟨fun hw => ?_, hrest⟩
    obtain ⟨ha, hw⟩ := List.forall_mem_cons.1 hw
    exact congrArg₂ List.cons (hfirst.trans (raised_answer ha)) (hothers hw)

end Accesses
end Cells

namespace Memory

/-- A memory is a plain array of bytes. If there are arrays of the size, it answers accesses one
after another as an array does that is all zeros at first, as long as their addresses can be
written, and in any case it holds what is in the array behind them. An access that is refused
changes nothing. A word that was written is read back as the signed word of the number, and all
bytes but its four are as they were. -/
theorem refines_cells {size : Nat} (small : size < sizeLimit) (accesses : List Access) :
    (∃ m, ofSize? size = some m ∧
      ((∀ a ∈ accesses, a.Writable) →
        (answers answer m accesses).1 =
          (answers Cells.answer (fun _ : Fin size => 0) accesses).1) ∧
      (answers Cells.answer (fun _ : Fin size => 0) accesses).2.Held
        (answers answer m accesses).2) ∧
    ∀ m : Memory,
      (∀ access cause, (m.answer access).1 = .refused cause → (m.answer access).2 = m) ∧
      ∀ address value written, m.write32 address value = .ok written →
        written.read32 address = .ok (Word.wrap value) ∧
        ∀ k : Nat, (k < address ∨ address + 4 ≤ k) → written.byte k = m.byte k := by
  obtain ⟨hanswers, hheld⟩ := (Cells.held_ofSize size).answers accesses
  refine ⟨⟨_, if_pos small, hanswers, hheld⟩, fun m => ⟨fun access cause h => ?_, ?_⟩⟩
  · exact answer_of_refused h
  · exact fun address value written h =>
      ⟨read32_of_write32 h, fun k outside => byte_of_write32 h outside⟩

theorem refines_cells_partialWord :
    6 < sizeLimit ∧
      (∀ a ∈ [Access.load [1, 2, 3] 3, .write32 0 (-2), .read32 0, .read32 4, .read8 5],
        a.Writable) ∧
      ∃ m, ofSize? 6 = some m ∧
        (answers answer m [.load [1, 2, 3] 3, .write32 0 (-2), .read32 0, .read32 4, .read8 5]).1 =
          [.done, .done, .number (-2), .refused (.outOfRange 4), .number 3] := by
  have small : 6 < sizeLimit := by decide
  have short {address : Int} (low : -2 ^ 31 ≤ address) (high : address < 2 ^ 31) :
      address.natAbs < 10 ^ Text.digitLimit :=
    Text.isWritable_iff.1 (Text.isWritable_of_fits low high)
  have writable : ∀ a ∈ [Access.load [1, 2, 3] 3, .write32 0 (-2), .read32 0, .read32 4, .read8 5],
      a.Writable := by
    simp only [List.forall_mem_cons, List.not_mem_nil, Access.Writable]
    exact ⟨short (by decide) (by decide), short (by decide) (by decide),
      short (by decide) (by decide), short (by decide) (by decide),
      short (by decide) (by decide), nofun⟩
  obtain ⟨⟨m, hm, hanswers, -⟩, -⟩ :=
    refines_cells small [.load [1, 2, 3] 3, .write32 0 (-2), .read32 0, .read32 4, .read8 5]
  exact ⟨small, writable, m, hm, hanswers writable⟩

/-- There is no memory of some sizes, and of some addresses it cannot be said that they are out of
range. -/
theorem unrefined_outside : ofSize? (2 ^ 63) = none ∧
    (ofSize 16).read32 (-((10 ^ Text.digitLimit : Nat) : Int)) = .error (.numeral .writing) := by
  refine ⟨if_neg (Nat.lt_irrefl _), ?_⟩
  -- The limit stays a power: its digits are never written out.
  generalize hsize : (10 ^ Text.digitLimit : Nat) = size
  have hpos : 0 < size := hsize ▸ Nat.pow_pos (by decide)
  have hneg : -(size : Int) < 0 := by omega
  have hraised : (Fault.Cause.outOfRange (-(size : Int))).raised = .numeral .writing :=
    if_neg (Text.not_isWritable_of_le hsize.le (by omega))
  rw [read32, wordAddress, if_pos hneg, hraised]
  rfl

end Memory
end MiniRisc
