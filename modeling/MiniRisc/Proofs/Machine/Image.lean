import MiniRisc.Program.Image
import MiniRisc.Proofs.Instruction.Decoded
import MiniRisc.Proofs.Machine.Safety
/-! Machines that run images. The decoder gives every operation what executing it needs, but for
loads and stores in the register form. The machine cannot execute these, and it can execute all
others. -/
namespace MiniRisc

namespace Program

/-- The word of an image that a program counter points at, if it points into the image. -/
def wordAt (image : List UInt8) (pc : Int) : Option Nat :=
  if 0 ≤ pc then (imageWords image)[pc.toNat]? else none

private theorem decodeFrom_getElem? {index : Nat} {words : List Nat} {ops : List Operation}
    (h : decodeFrom index words = .ok ops) (k : Nat) :
    words[k]?.map (fun (word : Nat) => Code.decode word (index + k : Nat)) =
      ops[k]?.map Except.ok := by
  induction words generalizing index ops k with
  | nil =>
    cases h
    rfl
  | cons word rest ih =>
    obtain ⟨first, hfirst, h⟩ := Outcome.bind_eq_ok_iff.1 h
    obtain ⟨others, hothers, h⟩ := Outcome.bind_eq_ok_iff.1 h
    obtain rfl := Except.ok.inj h
    cases k with
    | zero => exact congrArg some hfirst
    | succ k =>
      rw [show index + (k + 1) = index + 1 + k by omega]
      exact ih hothers k

/-- The instruction at a program counter is what the word there decodes to. -/
theorem fetch?_of_ofImage {image : List UInt8} {p : Program} (h : ofImage image = .ok p)
    (pc : Int) : (wordAt image pc).map (fun (word : Nat) => Code.decode word pc) =
      (p.fetch? pc).map fun i => .ok i.toOperation := by
  rw [ofImage] at h
  split at h
  · cases h
  obtain ⟨ops, hops, h⟩ := Outcome.bind_eq_ok_iff.1 h
  obtain rfl := Except.ok.inj h
  unfold wordAt fetch?
  split
  · rename_i hpc
    have hget := decodeFrom_getElem? hops pc.toNat
    rw [Nat.zero_add, Int.toNat_of_nonneg hpc] at hget
    rw [hget, List.getElem?_toArray, List.getElem?_map, Option.map_map]
    rfl
  · rfl

end Program

section Lacking
variable {o : Operation} {word : Int} (hd : o.Decoded word) (hl : o.LacksDisplacement)
include hd hl

theorem Effect.run_execute_of_lacks (policy : ServicePolicy) (s : State) :
    (Effect.execute policy o).run s = .error (.defect .missingOperand) s := by
  obtain ⟨rd, rs1, -, hrs1⟩ := hd.registers
  have haddress : (Effect.address o).run s = .error (.defect .missingOperand) s := by
    simp only [Effect.address, hrs1, hl.2, EStateM.run_bind, Effect.run_read]
    rfl
  have hshape := hl.1
  cases hop : o.op with
  | ld =>
    simp only [Effect.execute, Effect.perform, hop, Effect.perform.stay, Effect.load,
      EStateM.run_bind, EStateM.run_get, haddress]
  | st =>
    simp only [Effect.execute, Effect.perform, hop, Effect.perform.stay, Effect.store,
      EStateM.run_bind, EStateM.run_get, haddress]
  | _ => simp [hop, Opcode.shape] at hshape

/-- Such an operation has no text either. -/
theorem Instruction.render_of_lacks {i : Instruction} (hi : i.toOperation = o) :
    i.render = .error .missingOperand := by
  subst hi
  obtain ⟨rd, rs1, hrd, -⟩ := hd.registers
  simp only [render, hrd, registerName, Register.ofNumber?_val, hl.1, displacementText, hl.2]
  rfl

end Lacking

namespace Machine
variable {m : Machine} {i : Instruction}

/-- A machine stays where it is at an operation without its displacement. -/
theorem step_of_lacks {word : Int} (hi : m.current? = some i) (hd : i.toOperation.Decoded word)
    (hl : i.LacksDisplacement) : m.step.1 = .error (.defect .missingOperand) := by
  rcases m.note_cases i with ⟨d, hn⟩ | ⟨trace, journal, hn⟩
  · have hline := (note_eq_error_iff.1 hn).2
    rw [traceLine, Instruction.render_of_lacks hd hl rfl] at hline
    obtain rfl : Defect.missingOperand = d := by cases hline; rfl
    rw [step_of_note_error hi hn]
  · rw [step_of_execute_error hi hn (Effect.run_execute_of_lacks hd hl _ _)]
    rfl

structure Decoded (m : Machine) : Prop where
  words : ∀ i ∈ m.program.instructions, ∃ word : Int, i.toOperation.Decoded word
  binary : m.state.console.Binary

/-- A decoded instruction is an action, or it is without its displacement and the step fails. -/
theorem Decoded.current (h : m.Decoded) (i : Instruction) (hi : m.current? = some i) :
    (i.LacksDisplacement ∧ m.step.1 = .error (.defect .missingOperand)) ∨
      (¬ i.LacksDisplacement ∧ ∃ a, i.action? = some a) := by
  obtain ⟨word, hd⟩ := h.words i (mem_of_current? hi)
  by_cases hl : i.LacksDisplacement
  · exact .inl ⟨hl, step_of_lacks hi hd hl⟩
  · exact .inr ⟨hl, hd.action hl⟩

theorem Decoded.step (h : m.Decoded) : m.step.2.Decoded where
  words := fun i hi => h.words i (m.step_program ▸ hi)
  binary := binary_step h.binary fun i hi =>
    (h.current i hi).imp (fun lacks => ⟨_, lacks.2⟩) fun action => action.2

theorem Decoded.after (h : m.Decoded) (n : Nat) : (m.after n).Decoded :=
  preserved_by_steps (fun _ h => h.step) h n

/-- Only the missing displacement of a load or a store is a defect. -/
theorem Decoded.step_eq_defect_iff (h : m.Decoded) {d : Defect} :
    m.step.1 = .error (.defect d) ↔
      d = .missingOperand ∧ ∃ i, m.current? = some i ∧ i.LacksDisplacement := by
  constructor
  · intro hd
    by_cases hlacks : ∃ i, m.current? = some i ∧ i.LacksDisplacement
    · obtain ⟨i, hi, hl⟩ := hlacks
      rcases h.current i hi with ⟨-, hs⟩ | ⟨hn, -⟩
      · rw [hs] at hd
        cases hd
        exact ⟨rfl, i, hi, hl⟩
      · exact absurd hl hn
    · refine absurd hd (step_ne_defect h.binary (fun i hi => ?_) d)
      rcases h.current i hi with ⟨hl, -⟩ | ⟨-, action⟩
      · exact absurd ⟨i, hi, hl⟩ hlacks
      · exact action
  · rintro ⟨rfl, i, hi, hl⟩
    rcases h.current i hi with ⟨-, hs⟩ | ⟨hn, -⟩
    · exact hs
    · exact absurd hl hn

end Machine

namespace Program
variable {image : List UInt8} {p : Program}

private theorem exists_word_of_fetch (h : ofImage image = .ok p) {pc : Int} {i : Instruction}
    (hi : p.fetch? pc = some i) :
    ∃ word : Nat, wordAt image pc = some word ∧ Code.decode word pc = .ok i.toOperation := by
  have hfetch := fetch?_of_ofImage h pc
  rwa [hi, Option.map_some, Option.map_eq_some_iff] at hfetch

theorem exists_fetch_of_word (h : ofImage image = .ok p) {pc : Int} {word : Nat}
    (hw : wordAt image pc = some word) :
    ∃ i, p.fetch? pc = some i ∧ Code.decode word pc = .ok i.toOperation := by
  have hfetch := fetch?_of_ofImage h pc
  rw [hw, Option.map_some, eq_comm, Option.map_eq_some_iff] at hfetch
  obtain ⟨i, hi, hdecode⟩ := hfetch
  exact ⟨i, hi, hdecode.symm⟩

/-- At a program counter stands a load or store without displacement exactly if the word there is
one. -/
theorem lacksDisplacement_at_iff (h : ofImage image = .ok p) (pc : Int) :
    (∃ i, p.fetch? pc = some i ∧ i.LacksDisplacement) ↔
      ∃ word : Nat, wordAt image pc = some word ∧ Code.LacksDisplacement word := by
  constructor
  · rintro ⟨i, hi, hl⟩
    obtain ⟨word, hw, hd⟩ := exists_word_of_fetch h hi
    exact ⟨word, hw, (Code.lacksDisplacement_iff hd).1 hl⟩
  · rintro ⟨word, hw, hl⟩
    obtain ⟨i, hi, hd⟩ := exists_fetch_of_word h hw
    exact ⟨i, hi, (Code.lacksDisplacement_iff hd).2 hl⟩

theorem ofImage_decoded (h : ofImage image = .ok p) :
    ∀ i ∈ p.instructions, ∃ word : Int, i.toOperation.Decoded word := by
  intro i hi
  obtain ⟨k, hk, rfl⟩ := Array.getElem_of_mem hi
  have hfetch : p.fetch? k = some p.instructions[k] := by simp [fetch?, hk]
  obtain ⟨word, -, hd⟩ := exists_word_of_fetch h hfetch
  exact ⟨word, (Code.decoded_of_decode hd).2⟩

/-- A machine that runs an image on streams of bytes comes to a defect exactly where the word at
its program counter is a load or a store in the register form, and that changes nothing. An image
without such words is safe: every step of every run halts, goes on or has a fault. -/
theorem ofImage_defect_iff (h : ofImage image = .ok p) {m : Machine} (hm : m.program = p)
    (hb : m.state.console.Binary) :
    (∀ n d, (m.after n).step.1 = .error (.defect d) ↔ d = .missingOperand ∧
      ∃ word : Nat, wordAt image (m.after n).state.registers.pc = some word ∧
        Code.LacksDisplacement word) ∧
    (∀ n t, (m.after n).step.1 = .error t → (m.after n).step.2.state = (m.after n).state) ∧
    ((∀ word ∈ imageWords image, ¬ Code.LacksDisplacement word) →
      ∀ n t, (m.after n).step.1 = .error t → ∃ f, t = .fault f) := by
  subst hm
  have hdefect : ∀ n d, (m.after n).step.1 = .error (.defect d) ↔ d = .missingOperand ∧
      ∃ word : Nat, wordAt image (m.after n).state.registers.pc = some word ∧
        Code.LacksDisplacement word := by
    intro n d
    have hdecoded : m.Decoded := ⟨ofImage_decoded h, hb⟩
    rw [← lacksDisplacement_at_iff h, (hdecoded.after n).step_eq_defect_iff, Machine.current?,
      m.after_program]
  refine ⟨hdefect, fun n t ht => Machine.step_error_state ht, fun hsafe n t ht => ?_⟩
  cases t with
  | fault f => exact ⟨f, rfl⟩
  | defect d =>
    obtain ⟨-, word, hw, hl⟩ := (hdefect n d).1 ht
    rw [wordAt] at hw
    split at hw
    · exact absurd hl (hsafe word (List.mem_of_getElem? hw))
    · cases hw

def bareLoad : List UInt8 := [0, 0, 0, 0x70]

private theorem ofImage_bareLoad :
    ofImage bareLoad = .ok ⟨#[{ op := .ld, rs2 := some 0 }], []⟩ := by
  rfl

theorem ofImage_defect_bareLoad :
    ∃ p, ofImage bareLoad = .ok p ∧ (Machine.start p {} {}).state.console.Binary ∧
      (Machine.start p {} {}).step.1 = .error (.defect .missingOperand) := by
  have hb : (Machine.start ⟨#[{ op := .ld, rs2 := some 0 }], []⟩ {} {}).state.console.Binary :=
    ⟨by decide, by decide⟩
  refine ⟨_, ofImage_bareLoad, hb, ?_⟩
  refine ((ofImage_defect_iff ofImage_bareLoad rfl hb).1 0 .missingOperand).2 ⟨rfl, 0x70000000, ?_⟩
  exact ⟨rfl, .inl rfl, rfl⟩

/-- An image that the decoder accepts may end in a defect. -/
theorem ofImage_unsafe :
    ¬ ∀ (image : List UInt8) p, ofImage image = .ok p → ∀ m : Machine, m.program = p →
      m.state.console.Binary → ∀ n t, (m.after n).step.1 = .error t → ∃ f, t = .fault f := by
  intro safe
  have hstep : ((Machine.start ⟨#[{ op := .ld, rs2 := some 0 }], []⟩ {} {}).after 0).step.1 =
      .error (.defect .missingOperand) := rfl
  obtain ⟨f, hf⟩ := safe bareLoad _ ofImage_bareLoad _ rfl ⟨by decide, by decide⟩ 0 _ hstep
  cases hf

end Program
end MiniRisc
