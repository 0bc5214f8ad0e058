import MiniRisc.Machine.Memory
import MiniRisc.Proofs.Outcome
import MiniRisc.Proofs.Text.Digits
/-! Memory a byte at a time: where there is a word, and what a store leaves behind. -/
namespace MiniRisc.Memory
variable {m : Memory} {address value : Int} {cause : Fault.Cause}

/-- Why there is no word at an address: it is negative, or else no multiple of four, or else too
high. -/
def Refuses (m : Memory) (address : Int) (cause : Fault.Cause) : Prop :=
  (address < 0 ∧ cause = .outOfRange address) ∨
    (0 ≤ address ∧ address % 4 ≠ 0 ∧ cause = .unaligned address) ∨
    (0 ≤ address ∧ address % 4 = 0 ∧ m.size < address + 4 ∧ cause = .outOfRange address)

theorem raised_of_writable (h : Text.isWritable address = true) :
    (Fault.Cause.outOfRange address).raised = .outOfRange address ∧
      (Fault.Cause.unaligned address).raised = .unaligned address := by
  simp only [Fault.Cause.raised, h, if_true, and_self]

theorem wordAddress_eq_error_iff (h : Text.isWritable address = true) :
    m.wordAddress address = .error cause ↔ m.Refuses address cause := by
  obtain ⟨hrange, haligned⟩ := raised_of_writable h
  unfold wordAddress Refuses
  rw [hrange, haligned]
  by_cases hneg : address < 0
  · have hnot : ¬ 0 ≤ address := by omega
    simp [hneg, hnot, eq_comm]
  · have hpos : 0 ≤ address := by omega
    by_cases hfour : address % 4 = 0
    · by_cases hhigh : m.size < address + 4 <;> simp [hneg, hpos, hfour, hhigh, eq_comm]
    · simp [hneg, hpos, hfour, eq_comm]

theorem wordAddress_eq_ok_iff {n : Nat} : m.wordAddress address = .ok n ↔
    0 ≤ address ∧ address % 4 = 0 ∧ address + 4 ≤ m.size ∧ n = address.toNat := by
  rw [wordAddress]
  by_cases hneg : address < 0
  · have hnot : ¬ 0 ≤ address := by omega
    simp [hneg, hnot]
  · have hpos : 0 ≤ address := by omega
    by_cases hfour : address % 4 = 0
    · by_cases hhigh : m.size < address + 4
      · have hnot : ¬ address + 4 ≤ m.size := by omega
        simp [hneg, hfour, hhigh, hnot]
      · have hlow : address + 4 ≤ m.size := by omega
        simp [hneg, hpos, hfour, hhigh, hlow, eq_comm]
    · simp [hneg, hfour]

theorem read32_eq_error_iff (h : Text.isWritable address = true) :
    m.read32 address = .error cause ↔ m.Refuses address cause := by
  rw [← wordAddress_eq_error_iff h, read32]
  cases m.wordAddress address <;> simp [bind, Except.bind, pure, Except.pure]

theorem write32_eq_error_iff (h : Text.isWritable address = true) :
    m.write32 address value = .error cause ↔ m.Refuses address cause := by
  rw [← wordAddress_eq_error_iff h, write32]
  cases m.wordAddress address <;> simp [bind, Except.bind, pure, Except.pure]

theorem size_write32 {written : Memory} (h : m.write32 address value = .ok written) :
    written.size = m.size := by
  rw [write32] at h
  cases ha : m.wordAddress address with
  | error cause =>
    rw [ha] at h
    cases h
  | ok position =>
    rw [ha] at h
    cases h
    exact size_store m position _

theorem size_load {loaded : Memory} {data : List UInt8} {base : Int}
    (h : m.load data base = .ok loaded) : loaded.size = m.size := by
  rw [load] at h
  split at h
  · cases h
  · cases h
    exact size_store m _ data

theorem exists_read8_iff :
    (∃ b ≤ 255, m.read8 address = .ok b) ↔ 0 ≤ address ∧ address < m.size := by
  rw [read8]
  split
  · rename_i inside
    have hbyte := (m.byte address.toNat).toNat_lt
    exact iff_of_true ⟨_, by omega, rfl⟩ inside
  · rename_i outside
    refine iff_of_false ?_ outside
    rintro ⟨b, -, h⟩
    cases h

private theorem byte_setIfInBounds (m : Memory) (position k : Nat) (b : UInt8) :
    (⟨m.bytes.setIfInBounds position b⟩ : Memory).byte k =
      if position = k ∧ k < m.size then b else m.byte k := by
  simp only [byte, size, Array.getD_eq_getD_getElem?, Array.getElem?_setIfInBounds]
  by_cases hk : position = k
  · subst hk
    by_cases hlt : position < m.bytes.size <;> simp [hlt]
  · simp [hk]

theorem byte_store_outside {m : Memory} {position k : Nat} {data : List UInt8}
    (h : k < position ∨ position + data.length ≤ k) :
    (m.store position data).byte k = m.byte k := by
  induction data generalizing m position with
  | nil => rfl
  | cons b rest ih =>
    rw [List.length_cons] at h
    rw [store, ih (by omega), byte_setIfInBounds, if_neg (by omega)]

theorem byte_store_inside {m : Memory} {position offset : Nat} {data : List UInt8}
    (inside : position + data.length ≤ m.size) (h : offset < data.length) :
    (m.store position data).byte (position + offset) = data[offset] := by
  induction data generalizing m position offset with
  | nil => cases h
  | cons b rest ih =>
    rw [List.length_cons] at inside h
    cases offset with
    | zero =>
      rw [store, byte_store_outside (by omega), byte_setIfInBounds, if_pos (by omega)]
      rfl
    | succ offset =>
      have hsize : (⟨m.bytes.setIfInBounds position b⟩ : Memory).size = m.size := by simp [size]
      rw [store, show position + (offset + 1) = position + 1 + offset by omega,
        ih (by omega) (by omega)]
      rfl

/-- A store copies its bytes to their place and leaves all others. -/
theorem byte_store {position : Nat} {data : List UInt8} (inside : position + data.length ≤ m.size)
    (k : Nat) : (m.store position data).byte k =
      if position ≤ k then data[k - position]?.getD (m.byte k) else m.byte k := by
  split
  · rename_i hle
    obtain ⟨offset, rfl⟩ := Nat.exists_eq_add_of_le hle
    rw [Nat.add_sub_cancel_left]
    by_cases hlt : offset < data.length
    · rw [byte_store_inside inside hlt, List.getElem?_eq_getElem hlt]
      rfl
    · rw [byte_store_outside (by omega), List.getElem?_eq_none (by omega)]
      rfl
  · rename_i hlt
    exact byte_store_outside (by omega)

private theorem fetch_store {position : Nat} {data : List UInt8}
    (inside : position + data.length ≤ m.size) :
    (m.store position data).fetch position data.length = data := by
  refine List.ext_getElem (by simp [fetch]) fun offset _ h => ?_
  simp only [fetch, List.getElem_map, List.getElem_range', Nat.one_mul]
  exact byte_store_inside inside h

section Words
variable {written : Memory}

private theorem write32_eq_ok_iff : m.write32 address value = .ok written ↔
    (0 ≤ address ∧ address % 4 = 0 ∧ address + 4 ≤ m.size) ∧
      m.store address.toNat (Word.bytes value) = written := by
  rw [write32, Outcome.bind_eq_ok_iff]
  constructor
  · rintro ⟨position, ha, h⟩
    obtain ⟨hneg, hfour, hhigh, rfl⟩ := wordAddress_eq_ok_iff.1 ha
    exact ⟨⟨hneg, hfour, hhigh⟩, Except.ok.inj h⟩
  · rintro ⟨⟨hneg, hfour, hhigh⟩, rfl⟩
    exact ⟨_, wordAddress_eq_ok_iff.2 ⟨hneg, hfour, hhigh, rfl⟩, rfl⟩

/-- A word that was written is read back as the signed word of the number. -/
theorem read32_of_write32 (h : m.write32 address value = .ok written) :
    written.read32 address = .ok (Word.wrap value) := by
  obtain ⟨⟨hneg, hfour, hhigh⟩, rfl⟩ := write32_eq_ok_iff.1 h
  have ha : (m.store address.toNat (Word.bytes value)).wordAddress address =
      .ok address.toNat := by
    rw [wordAddress_eq_ok_iff, size_store]
    exact ⟨hneg, hfour, hhigh, rfl⟩
  have hfetch : (m.store address.toNat (Word.bytes value)).fetch address.toNat 4 =
      Word.bytes value := fetch_store (by rw [Word.length_bytes]; omega)
  have hword : Word.wrap (Word.ofBytes (Word.bytes value)) = Word.wrap value := by
    rw [Word.ofBytes_bytes]
    exact Int.emod_bmod ..
  rw [read32, Outcome.bind_eq_ok_iff]
  exact ⟨address.toNat, ha, by rw [hfetch, hword]; rfl⟩

theorem byte_of_write32 (h : m.write32 address value = .ok written) {k : Nat}
    (outside : k < address ∨ address + 4 ≤ k) : written.byte k = m.byte k := by
  obtain ⟨⟨hneg, -, -⟩, rfl⟩ := write32_eq_ok_iff.1 h
  exact byte_store_outside (by rw [Word.length_bytes]; omega)

end Words

end MiniRisc.Memory
