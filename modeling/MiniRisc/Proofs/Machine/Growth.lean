import MiniRisc.Proofs.Machine.Next
/-! Machines with more memory. A run that stays inside the smaller memory is the same in the larger
one, and leaves the further bytes as they are: no address wraps around into them. -/
namespace MiniRisc

namespace Memory
variable {m : Memory} {address : Int} (extra : Array UInt8)

def extend (m : Memory) (extra : Array UInt8) : Memory := ⟨m.bytes ++ extra⟩

private theorem size_extend : (m.extend extra).size = m.size + extra.size := Array.size_append

private theorem byte_extend_of_lt {k : Nat} (h : k < m.size) :
    (m.extend extra).byte k = m.byte k := by
  simp only [byte, extend, Array.getD_eq_getD_getElem?]
  rw [Array.getElem?_append_left h]

private theorem byte_extend_of_le {k : Nat} (h : m.size ≤ k) :
    (m.extend extra).byte k = extra.getD (k - m.size) 0 := by
  simp only [byte, extend, Array.getD_eq_getD_getElem?]
  rw [Array.getElem?_append_right h]
  rfl

private theorem fetch_extend {position count : Nat} (h : position + count ≤ m.size) :
    (m.extend extra).fetch position count = m.fetch position count := by
  apply List.map_congr_left
  intro k hk
  rw [List.mem_range'_1] at hk
  exact byte_extend_of_lt extra (by omega)

private theorem store_extend {position : Nat} {data : List UInt8}
    (h : position + data.length ≤ m.size) :
    (m.extend extra).store position data = (m.store position data).extend extra := by
  induction data generalizing m position with
  | nil => rfl
  | cons b rest ih =>
    rw [List.length_cons] at h
    have hset : (m.extend extra).bytes.setIfInBounds position b =
        m.bytes.setIfInBounds position b ++ extra :=
      Array.setIfInBounds_append_left (show position < m.bytes.size by unfold size at h; omega)
    have hsize : (⟨m.bytes.setIfInBounds position b⟩ : Memory).size = m.size := by simp [size]
    rw [store, store, hset, ← ih (by omega)]
    rfl

/-- Only an address that is too high for the smaller memory may be in the larger one. -/
theorem wordAddress_extend (writable : Text.isWritable address = true)
    (h : ∀ high, m.wordAddress address = .error (.outOfRange high) → high < 0) :
    (m.extend extra).wordAddress address = m.wordAddress address := by
  have hsize := size_extend (m := m) extra
  cases ha : m.wordAddress address with
  | ok position =>
    obtain ⟨hneg, hfour, hhigh, hposition⟩ := wordAddress_eq_ok_iff.1 ha
    exact wordAddress_eq_ok_iff.2 ⟨hneg, hfour, by omega, hposition⟩
  | error cause =>
    rw [wordAddress_eq_error_iff writable]
    rcases (wordAddress_eq_error_iff writable).1 ha with hneg | hfour | ⟨hpos, -, -, rfl⟩
    · exact .inl hneg
    · exact .inr (.inl hfour)
    · have := h address ha
      omega

private theorem read32_extend (writable : Text.isWritable address = true)
    (h : ∀ high, m.read32 address = .error (.outOfRange high) → high < 0) :
    (m.extend extra).read32 address = m.read32 address := by
  have haddress : (m.extend extra).wordAddress address = m.wordAddress address :=
    wordAddress_extend extra writable fun high hh =>
      h high ((read32_eq_error_iff writable).2 ((wordAddress_eq_error_iff writable).1 hh))
  rw [read32, read32, haddress]
  cases ha : m.wordAddress address with
  | error cause => simp only [bind, Except.bind]
  | ok position =>
    obtain ⟨hneg, -, hhigh, hposition⟩ := wordAddress_eq_ok_iff.1 ha
    have hfetch : (m.extend extra).fetch position 4 = m.fetch position 4 :=
      fetch_extend extra (by omega)
    simp only [bind, Except.bind, hfetch]

private theorem write32_extend {value : Int} (writable : Text.isWritable address = true)
    (h : ∀ high, m.write32 address value = .error (.outOfRange high) → high < 0) :
    (m.extend extra).write32 address value =
      (m.write32 address value).map fun (written : Memory) => written.extend extra := by
  have haddress : (m.extend extra).wordAddress address = m.wordAddress address :=
    wordAddress_extend extra writable fun high hh =>
      h high ((write32_eq_error_iff writable).2 ((wordAddress_eq_error_iff writable).1 hh))
  rw [write32, write32, haddress]
  cases ha : m.wordAddress address with
  | error cause => rfl
  | ok position =>
    obtain ⟨hneg, -, hhigh, hposition⟩ := wordAddress_eq_ok_iff.1 ha
    have hlength := Word.length_bytes value
    have hstore : (m.extend extra).store position (Word.bytes value) =
        (m.store position (Word.bytes value)).extend extra := store_extend extra (by omega)
    simp only [bind, Except.bind, hstore]
    rfl

private theorem load_extend {loaded : Memory} {data : List UInt8} {base : Int}
    (h : m.load data base = .ok loaded) : (m.extend extra).load data base =
      .ok (loaded.extend extra) := by
  have hsize := size_extend (m := m) extra
  unfold load at h ⊢
  split at h
  · cases h
  · rename_i hinside
    cases h
    rw [if_neg (by omega), store_extend extra (by omega)]

end Memory

def State.extend (s : State) (extra : Array UInt8) : State :=
  { s with memory := s.memory.extend extra }

section Actions
variable {p : Program} {policy : ServicePolicy} {s : State} (extra : Array UInt8)

private theorem Action.perform_extend {a : Action}
    (h : ∀ high, a.perform policy s = .error (.ofCause (.outOfRange high)) → high < 0) :
    a.perform policy (s.extend extra) =
      (a.perform policy s).map (Prod.map (State.extend · extra) id) := by
  refine perform_beside (Memory.extend · extra) id ?_ ?_ ?_
  · rintro rd base displacement rfl
    exact Memory.read32_extend extra (isWritable_address ..) fun high hh =>
      h high (behindAccess_eq_fault_iff.2 hh)
  · rintro rs base displacement rfl
    exact Memory.write32_extend extra (isWritable_address ..) fun high hh =>
      h high (behindAccess_eq_fault_iff.2 hh)
  · intro _
    rw [Prod.map_id, Except.map_id]
    rfl

/-- What is next is the same with more memory, unless the action fails for an address that is too
high. -/
theorem Program.next_extend
    (h : ∀ f high, (p.next policy s).1 = .error (.fault f) → f.cause = .outOfRange high →
      high < 0) :
    p.next policy (s.extend extra) =
      Prod.map id (State.extend · extra) (p.next policy s) := by
  refine next_beside (Memory.extend · extra) id fun i a hi ha => ?_
  refine Action.perform_extend extra fun high hhigh => ?_
  have hnext := congrArg Prod.fst (next_of_error hi ha hhigh)
  exact h ⟨.outOfRange high, s.registers.pc, i.line⟩ high hnext rfl

end Actions

namespace Machine
variable {m u : Machine} {extra : Array UInt8}

structure Enlarged (extra : Array UInt8) (m u : Machine) : Prop where
  program : u.program = m.program
  policy : u.settings.policy = m.settings.policy
  state : u.state = m.state.extend extra

/-- A step that fails for an address that is not negative but too high. -/
def Overruns (m : Machine) : Prop :=
  ∃ f address, m.step.1 = .error (.fault f) ∧ f.cause = .outOfRange address ∧ 0 ≤ address

namespace Enlarged

theorem step (made : m.program.Made) (h : m.Enlarged extra u) (hm : ¬ m.Overruns) :
    u.step.1 = m.step.1 ∧ m.step.2.Enlarged extra u.step.2 := by
  obtain ⟨hresult, hstate⟩ := step_next made
  obtain ⟨hresult', hstate'⟩ := step_next (h.program ▸ made : u.program.Made)
  have hnext : m.program.next m.settings.policy (m.state.extend extra) =
      Prod.map id (State.extend · extra) (m.program.next m.settings.policy m.state) := by
    refine Program.next_extend extra fun f high hf hcause => ?_
    by_contra hpos
    exact hm ⟨f, high, hresult.trans hf, hcause, by omega⟩
  rw [h.program, h.policy, h.state, hnext] at hresult' hstate'
  refine ⟨hresult'.trans hresult.symm, ?_, ?_, ?_⟩
  · rw [step_program, step_program, h.program]
  · rw [step_settings, step_settings, h.policy]
  · rw [hstate', hstate]
    rfl

theorem after (made : m.program.Made) (h : m.Enlarged extra u) {n : Nat}
    (hm : ∀ k < n, ¬ (m.after k).Overruns) : (m.after n).Enlarged extra (u.after n) := by
  induction n with
  | zero => exact h
  | succ n ih =>
    have hn := ih fun k hk => hm k (by omega)
    rw [after_succ, after_succ]
    exact (hn.step (made_after made n) (hm n (by omega))).2

theorem load {data : List UInt8} {base : Int} {loaded : Machine} (h : m.Enlarged extra u)
    (hm : m.load data base = .ok loaded) :
    ∃ loaded', u.load data base = .ok loaded' ∧ loaded.Enlarged extra loaded' := by
  obtain ⟨memory, hload, hloaded⟩ := Outcome.bind_eq_ok_iff.1 hm
  obtain rfl := Except.ok.inj hloaded
  have hmemory : u.state.memory = m.state.memory.extend extra := by rw [h.state]; rfl
  refine ⟨{ u with state := { u.state with memory := memory.extend extra } }, ?_, ?_⟩
  · rw [Machine.load, hmemory, Memory.load_extend extra hload]
    rfl
  · refine ⟨h.program, h.policy, ?_⟩
    simp only [h.state]
    rfl

/-- Behind a run that is the same, all is the same but for the further bytes, which are as they
were. -/
theorem after_agree (made : m.program.Made) (h : m.Enlarged extra u) {n : Nat}
    (hn : (m.after n).Enlarged extra (u.after n)) :
    (u.after n).state.registers = (m.after n).state.registers ∧
      (u.after n).state.console = (m.after n).state.console ∧
      (∀ k < m.state.memory.size,
        (u.after n).state.memory.byte k = (m.after n).state.memory.byte k) ∧
      ∀ k, m.state.memory.size ≤ k → (u.after n).state.memory.byte k = u.state.memory.byte k := by
  have hsize := size_after made n
  rw [hn.state, h.state]
  refine ⟨rfl, rfl, fun k hk => ?_, fun k hk => ?_⟩
  · exact Memory.byte_extend_of_lt extra (by omega)
  · have hlast : (m.after n).state.memory.size ≤ k := by omega
    simp only [State.extend]
    rw [Memory.byte_extend_of_le extra hlast, Memory.byte_extend_of_le extra hk, hsize]

end Enlarged

def preload (data : List (List UInt8 × Int)) (m : Machine) : Except Fault.Cause Machine :=
  data.foldlM (fun m d => m.load d.1 d.2) m

private theorem Enlarged.preload {data : List (List UInt8 × Int)} {loaded : Machine}
    (h : m.Enlarged extra u) (hm : m.preload data = .ok loaded) :
    ∃ loaded', u.preload data = .ok loaded' ∧ loaded.Enlarged extra loaded' := by
  induction data generalizing m u with
  | nil =>
    cases hm
    exact ⟨u, rfl, h⟩
  | cons d rest ih =>
    obtain ⟨next, hnext, hrest⟩ := Outcome.bind_eq_ok_iff.1 hm
    obtain ⟨next', hnext', henlarged⟩ := h.load hnext
    obtain ⟨loaded', hloaded', hend⟩ := ih henlarged hrest
    exact ⟨loaded', Outcome.bind_eq_ok_iff.2 ⟨next', hnext', hloaded'⟩, hend⟩

private theorem enlarged_start (p : Program) {small large : Settings} (console : Console)
    (policy : large.policy = small.policy) (size : small.memorySize ≤ large.memorySize) :
    (start p small console).Enlarged (.replicate (large.memorySize - small.memorySize) 0)
      (start p large console) := by
  refine ⟨rfl, policy, ?_⟩
  have hbytes : Memory.ofSize large.memorySize = (Memory.ofSize small.memorySize).extend
      (.replicate (large.memorySize - small.memorySize) 0) := by
    simp only [Memory.ofSize, Memory.extend, Array.replicate_append_replicate]
    congr
    omega
  simp only [start, hbytes]
  rfl

/-- A good run is the same with more memory. Data that is loaded into the smaller memory can be
loaded into the larger one, and then this is the smaller one with zeros behind it. Take any machine
and one with further bytes behind its memory. As long as the first has no fault, each step of the
second comes to the same, registers, streams and the bytes of the smaller memory agree, and the
further bytes are as they were. The first fault of the one is the first fault of the other, but for
one at an address that is not negative and out of range. -/
theorem larger_memory_unseen {p : Program} (made : p.Made) :
    (∀ (small large : Settings) (console : Console) (data : List (List UInt8 × Int)) (m : Machine),
      small.memorySize ≤ large.memorySize → large.policy = small.policy →
      (start p small console).preload data = .ok m →
      ∃ u, (start p large console).preload data = .ok u ∧
        m.Enlarged (.replicate (large.memorySize - small.memorySize) 0) u) ∧
    ∀ (m u : Machine) (extra : Array UInt8), m.program = p → m.Enlarged extra u →
      ∀ n, (∀ k < n, ∀ f, (m.after k).step.1 ≠ .error (.fault f)) →
        (∀ k < n, (u.after k).step.1 = (m.after k).step.1) ∧
        (∀ k ≤ n, (u.after k).state.registers = (m.after k).state.registers ∧
          (u.after k).state.console = (m.after k).state.console ∧
          (∀ address < m.state.memory.size,
            (u.after k).state.memory.byte address = (m.after k).state.memory.byte address) ∧
          ∀ address, m.state.memory.size ≤ address →
            (u.after k).state.memory.byte address = u.state.memory.byte address) ∧
        ∀ f, (m.after n).step.1 = .error (.fault f) →
          (∀ address, f.cause = .outOfRange address → address < 0) →
            (u.after n).step.1 = .error (.fault f) := by
  constructor
  · intro small large console data m size policy hm
    exact (enlarged_start p console policy size).preload hm
  · rintro m u extra rfl h n clean
    have hclean : ∀ k < n, ¬ (m.after k).Overruns := by
      rintro k hk ⟨f, -, hf, -⟩
      exact clean k hk f hf
    have henlarged : ∀ k ≤ n, (m.after k).Enlarged extra (u.after k) := fun k hk =>
      h.after made fun j hj => hclean j (by omega)
    refine ⟨fun k hk => ?_, fun k hk => h.after_agree made (henlarged k hk), ?_⟩
    · exact ((henlarged k (by omega)).step (made_after made k) (hclean k hk)).1
    · intro f hf hcause
      have hn : ¬ (m.after n).Overruns := by
        rintro ⟨g, address, hg, haddress, hpos⟩
        obtain rfl : f = g := by simpa [hf] using hg
        have := hcause address haddress
        omega
      rw [((henlarged n (by omega)).step (made_after made n) hn).1, hf]

/-- A store inside the memory, then a load at an address that is no multiple of four. -/
def strayLoad : Program where
  instructions := #[
    { op := .st, rd := 1, imm := some 4, line := 1 },
    { op := .ld, rd := 2, imm := some 6, line := 2 }]

private theorem ofSource_strayLoad :
    Program.ofSource "st r1, 4[r0]\nld r2, 6[r0]" = .ok strayLoad := by
  cbv

theorem larger_memory_unseen_stray :
    Program.Made strayLoad ∧ ∃ m u,
      (start strayLoad { memorySize := 8 } {}).preload [([7, 7], 0)] = .ok m ∧
      (start strayLoad { memorySize := 16 } {}).preload [([7, 7], 0)] = .ok u ∧
      m.Enlarged (.replicate 8 0) u ∧
      (∀ k < 1, ∀ f, (m.after k).step.1 ≠ .error (.fault f)) ∧
      (u.after 1).state.registers = (m.after 1).state.registers ∧
      (u.after 1).step.1 = .error (.fault ⟨.unaligned 6, 1, 2⟩) := by
  have made : Program.Made strayLoad := .inl ⟨_, ofSource_strayLoad⟩
  obtain ⟨m, hm, hprogram, hfirst, hsecond⟩ : ∃ m : Machine,
      (start strayLoad { memorySize := 8 } {}).preload [([7, 7], 0)] = .ok m ∧
        m.program = strayLoad ∧ (m.after 0).step.1 = .ok none ∧
        (m.after 1).step.1 = .error (.fault ⟨.unaligned 6, 1, 2⟩) := ⟨_, rfl, rfl, rfl, rfl⟩
  have clean : ∀ k < 1, ∀ f, (m.after k).step.1 ≠ .error (.fault f) := by
    intro k hk f hf
    obtain rfl : k = 0 := by omega
    rw [hfirst] at hf
    cases hf
  obtain ⟨u, hu, henlarged⟩ := (larger_memory_unseen made).1 { memorySize := 8 }
    { memorySize := 16 } {} _ m (by decide) rfl hm
  obtain ⟨-, hstate, hfault⟩ :=
    (larger_memory_unseen made).2 m u _ hprogram henlarged 1 clean
  exact ⟨made, m, u, hm, hu, henlarged, clean, (hstate 1 (by omega)).1,
    hfault _ hsecond (by simp)⟩

end Machine
end MiniRisc
