import MiniRisc.Proofs.Architecture.Basic
import MiniRisc.Proofs.Machine.Fault
import MiniRisc.Proofs.Machine.Invariant
/-! States of the machine as states of the architecture, with what the machine reads, computes and
writes in them. -/
namespace MiniRisc
namespace Architecture

/-- The state of the architecture that a state of the machine stands for. -/
def abstract (s : MiniRisc.State) : State where
  registers r := Word.bits (s.registers.value r)
  equal := s.registers.equal
  greater := s.registers.greater
  pc := s.registers.pc
  steps := s.registers.steps
  size := s.memory.size
  memory k := (s.memory.byte k).toBitVec
  console := s.console

variable {s : MiniRisc.State}

theorem abstract_write (r : Register) (value : Int) :
    abstract (s.write r value) = (abstract s).write r (Word.bits value) := by
  have hregisters : (abstract (s.write r value)).registers =
      ((abstract s).write r (Word.bits value)).registers := by
    funext other
    by_cases h : other = r
    · subst h
      simp [abstract, State.write, MiniRisc.State.write, Registers.value_write, Word.bits_wrap]
    · have hne : r ≠ other := fun e => h e.symm
      simp [abstract, State.write, MiniRisc.State.write, Registers.value_write_of_ne _ _ hne, h]
  calc abstract (s.write r value)
    _ = { abstract s with registers := (abstract (s.write r value)).registers } := rfl
    _ = (abstract s).write r (Word.bits value) := by rw [hregisters]; rfl

theorem abstract_goto (pc : Int) : abstract (s.goto pc) = (abstract s).goto pc := rfl

theorem abstract_source (source : Action.Source) :
    Word.bits (source.value s.registers) = (abstract s).source source := by
  cases source with
  | register r => rfl
  | immediate modifier imm =>
    rw [Action.Source.value, Word.bits_widen]
    cases modifier <;> rfl

theorem abstract_address (base : Register) (displacement : Int) :
    Action.address s.registers base displacement =
      ((abstract s).address base displacement).toInt := Action.address_eq _ _ _

theorem abstract_holds (condition : Action.Condition) :
    condition.holds s.registers = (abstract s).holds condition := by
  cases condition <;> rfl

theorem abstract_result? {a b : Int} (f : Arithmetic) (ha : Word.Fits a) (hb : Word.Fits b) :
    (f.result? a b).map Word.bits = f.denote (Word.bits a) (Word.bits b) := by
  cases f with
  | div => exact Word.bits_div? ha hb
  | mod => exact Word.bits_mod? ha hb
  | add => rw [Arithmetic.result?, Option.map_some, Word.add, Word.bits_wrap, Word.bits_add]; rfl
  | sub => rw [Arithmetic.result?, Option.map_some, Word.sub, Word.bits_wrap, Word.bits_sub]; rfl
  | mul => rw [Arithmetic.result?, Option.map_some, Word.mul, Word.bits_wrap, Word.bits_mul]; rfl
  | and => rw [Arithmetic.result?, Option.map_some, Word.and, Word.bits_wrap, Word.bits_conj]; rfl
  | or => rw [Arithmetic.result?, Option.map_some, Word.or, Word.bits_wrap, Word.bits_disj]; rfl
  | lsl => rw [Arithmetic.result?, Option.map_some, Word.bits_shiftLeft]; rfl
  | lsr => rw [Arithmetic.result?, Option.map_some, Word.bits_shiftRightLogical]; rfl
  | asr => rw [Arithmetic.result?, Option.map_some, Word.bits_shiftRightArithmetic]; rfl

section Memory
variable {a : BitVec 32}

private theorem toInt_of_nonneg (h : 0 ≤ a.toInt) : a.toInt = a.toNat := by
  have := a.isLt
  rw [BitVec.toInt_eq_toNat_cond] at h ⊢
  split at h <;> split <;> omega

private theorem wordAddress_of_holds (h : (abstract s).Holds a) :
    s.memory.wordAddress a.toInt = .ok a.toNat := by
  obtain ⟨hneg, hfour, hhigh⟩ := h
  have hnat := toInt_of_nonneg hneg
  have hsize : (abstract s).size = s.memory.size := rfl
  exact Memory.wordAddress_eq_ok_iff.2 ⟨hneg, by omega, by omega, by omega⟩

theorem wordAddress_of_not_holds (h : ¬ (abstract s).Holds a) :
    ∃ cause, s.memory.wordAddress a.toInt = .error cause := by
  cases ha : s.memory.wordAddress a.toInt with
  | error cause => exact ⟨cause, rfl⟩
  | ok n =>
    obtain ⟨hneg, hfour, hhigh, -⟩ := Memory.wordAddress_eq_ok_iff.1 ha
    have hnat := toInt_of_nonneg hneg
    have hsize : (abstract s).size = s.memory.size := rfl
    exact absurd ⟨hneg, by omega, by omega⟩ h

theorem read32_of_holds (h : (abstract s).Holds a) : ∃ value,
    s.memory.read32 a.toInt = .ok value ∧ Word.bits value = (abstract s).word a.toNat := by
  rw [Memory.read32, wordAddress_of_holds h]
  refine ⟨_, rfl, ?_⟩
  rw [Word.bits_wrap]
  exact Word.bits_ofBytes _ _ _ _

private theorem store_bytes (m : Memory) {position : Nat} (value : Int) (k : Nat)
    (inside : position + 4 ≤ m.size) : ((m.store position (Word.bytes value)).byte k).toBitVec =
      if position ≤ k ∧ k < position + 4 then (Word.bits value).extractLsb' (8 * (k - position)) 8
      else (m.byte k).toBitVec := by
  have hlength : (Word.bytes value).length = 4 := Word.length_bytes value
  by_cases hk : position ≤ k ∧ k < position + 4
  · obtain ⟨offset, rfl⟩ : ∃ offset, k = position + offset := ⟨k - position, by omega⟩
    have hoffset : offset < (Word.bytes value).length := by omega
    rw [if_pos hk, Memory.byte_store_inside (by omega) hoffset, Word.toBitVec_bytes,
      Nat.add_sub_cancel_left]
  · rw [if_neg hk, Memory.byte_store_outside (by omega)]

theorem write32_of_holds (value : Int) (h : (abstract s).Holds a) : ∃ memory,
    s.memory.write32 a.toInt value = .ok memory ∧
      abstract { s with memory } = (abstract s).store a.toNat (Word.bits value) := by
  rw [Memory.write32, wordAddress_of_holds h]
  refine ⟨_, rfl, ?_⟩
  have hsize : (abstract s).size = s.memory.size := rfl
  have hinside : a.toNat + 4 ≤ s.memory.size := hsize ▸ h.2.2
  have hmemory := funext fun k => store_bytes s.memory value k hinside
  simp only [abstract, State.store, Memory.size_store, hmemory]

end Memory

section Services
variable {policy : ServicePolicy}

private theorem bits_byte (b : UInt8) : Word.bits b.toNat = b.toBitVec.setWidth 32 := by
  apply BitVec.eq_of_toNat_eq
  rw [Word.bits_natCast, BitVec.toNat_ofNat, BitVec.toNat_setWidth, UInt8.toNat_toBitVec]

private theorem bits_failure : Word.bits Console.failure = -1 := by decide

private theorem low_byte (value : Int) :
    UInt8.ofNat (value % 2 ^ 8).toNat = .ofBitVec ((Word.bits value).setWidth 8) := by
  have hbits := Word.toNat_bits value
  unfold Word.unsigned Word.modulus at hbits
  apply UInt8.eq_of_toBitVec_eq
  apply BitVec.eq_of_toNat_eq
  have hlow : (value % 2 ^ 8).toNat % 2 ^ 8 = (Word.bits value).toNat % 2 ^ 8 := by omega
  calc (value % 2 ^ 8).toNat % 2 ^ 8
    _ = (Word.bits value).toNat % 2 ^ 8 := hlow
    _ = ((Word.bits value).setWidth 8).toNat := (BitVec.toNat_setWidth _ _).symm

private theorem abstract_answer (result : Int) (console : Console) :
    abstract (s.answer result console) =
      State.write { abstract s with console } 0 (Word.bits result) := abstract_write 0 result

private theorem getByte_refines (h : s.console.Binary) : ∃ result console,
    s.console.getByte = .ok (result, console) ∧
      abstract (s.answer result console) = (abstract s).getByte := by
  unfold Console.getByte State.getByte
  cases hi : s.console.input with
  | text => exact absurd hi h.1
  | stream answers =>
    have hi' : (abstract s).console.input = .stream answers := hi
    rw [hi']
    match answers with
    | [] => exact ⟨_, _, rfl, by rw [abstract_answer, bits_failure]; rfl⟩
    | none :: rest => exact ⟨_, _, rfl, by rw [abstract_answer, bits_failure]; rfl⟩
    | some b :: rest => exact ⟨_, _, rfl, by rw [abstract_answer, bits_byte]; rfl⟩

private theorem putByte_refines (h : s.console.Binary) : ∃ result console,
    s.console.putByte (.ofNat (s.registers.value 1 % 2 ^ 8).toNat) = .ok (result, console) ∧
      abstract (s.answer result console) = (abstract s).putByte := by
  rw [low_byte]
  unfold Console.putByte State.putByte
  cases ho : s.console.output with
  | text => exact absurd ho h.2
  | stream next behind =>
    have ho' : (abstract s).console.output = .stream next behind := ho
    simp only [ho']
    cases next.headD behind with
    | collected => exact ⟨_, _, rfl, by rw [abstract_answer, bits_byte]; rfl⟩
    | refused => exact ⟨_, _, rfl, by rw [abstract_answer, bits_failure]; rfl⟩
    | failedLate => exact ⟨_, _, rfl, by rw [abstract_answer, bits_failure]; rfl⟩

/-- A service does what the architecture says, and it is refused where the architecture refuses. -/
theorem call_refines (hfits : Word.Fits s.serviceNumber) (hb : s.console.Binary) :
    (Service.call policy s.serviceNumber s.arguments s.console).toOption.map
      (fun answer => abstract (s.answer answer.1 answer.2)) = (abstract s).serve policy := by
  have hzero : (abstract s).registers 0 = 0 ↔ s.serviceNumber = 0 :=
    Word.bits_inj (b := 0) hfits ⟨by decide, by decide⟩
  have hone : (abstract s).registers 0 = 1 ↔ s.serviceNumber = 1 :=
    Word.bits_inj (b := 1) hfits ⟨by decide, by decide⟩
  simp only [Service.call, State.serve, hzero, hone]
  split
  · obtain ⟨result, console, hget, habs⟩ := getByte_refines hb
    rw [hget, ← habs]
    rfl
  · split
    · obtain ⟨result, console, hput, habs⟩ := putByte_refines hb
      simp only [State.arguments, List.map_cons]
      rw [hput, ← habs]
      rfl
    · cases policy with
      | refuse => rfl
      | answer =>
        rw [← bits_failure]
        exact congrArg some (abstract_answer _ _)

end Services

end Architecture
end MiniRisc
