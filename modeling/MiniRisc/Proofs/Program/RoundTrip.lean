import MiniRisc.Program.Image
import MiniRisc.Proofs.Assembly.Form
import MiniRisc.Proofs.Instruction.Code
/-! Images of assembled programs: one that exists is read back as the same program, and there is
one unless a branch is too far from its target. -/
namespace MiniRisc.Program
open Operation

/-- Whether every branch is near enough to its target for the field that holds the distance. -/
def BranchesReach (p : Program) : Prop :=
  ∀ (index : Nat) (i : Instruction) (target : Int), p.instructions[index]? = some i →
    i.op.shape = .branch → i.imm = some target →
      -2 ^ 26 ≤ target - index ∧ target - index < 2 ^ 26

/-- Operations of the assembler's form have words that decode to them, or one of them is the first
branch that is too far. -/
theorem wordsFrom_cases {size : Nat} {ops : List Operation} (h : ∀ o ∈ ops, o.Assembled size)
    (index : Nat) :
    ((∀ k o, ops[k]? = some o → ¬ Code.TooFar o (index + k)) ∧
      ∃ words, wordsFrom index ops = .ok words ∧ words.length = ops.length ∧
        (∀ word ∈ words, word < 2 ^ 32) ∧ decodeFrom index words = .ok ops) ∨
    ∃ k o distance, ops[k]? = some o ∧ Code.TooFar o (index + k) ∧
      wordsFrom index ops = .error (.branchTooFar o.op distance) := by
  -- A branch is encoded by its distance, so the index moves along the list.
  induction ops generalizing index with
  | nil => exact .inl ⟨by simp, [], rfl, rfl, by simp, rfl⟩
  | cons o rest ih =>
    have hrest : ∀ o ∈ rest, o.Assembled size := fun u hu => h u (List.mem_cons_of_mem o hu)
    rcases Code.word_of_assembled (h o (by simp)) index with ⟨near, word, he, hw, hd⟩ | ⟨far, d, he⟩
    · rcases ih hrest (index + 1) with ⟨nears, words, hws, hn, hlt, hds⟩ | ⟨k, u, d, hk, far, hf⟩
      · refine .inl ⟨?_, word :: words, ?_, by simp [hn], ?_, ?_⟩
        · intro k u hk
          cases k with
          | zero =>
            obtain rfl := Option.some.inj hk
            exact near
          | succ k =>
            rw [show index + (k + 1) = index + 1 + k by omega]
            exact nears k u hk
        · rw [wordsFrom, he, hws]
          rfl
        · intro w hmem
          rcases List.mem_cons.1 hmem with rfl | hmem
          · exact hw
          · exact hlt w hmem
        · rw [decodeFrom, hd, hds]
          rfl
      · refine .inr ⟨k + 1, u, d, hk, ?_, ?_⟩
        · rwa [show index + (k + 1) = index + 1 + k by omega]
        · rw [wordsFrom, he, hf]
          rfl
    · refine .inr ⟨0, o, d, rfl, far, ?_⟩
      rw [wordsFrom, he]
      rfl

/-- The bytes of words are read as the same words. -/
theorem imageWords_flatMap {words : List Nat} (h : ∀ word ∈ words, word < 2 ^ 32) :
    imageWords (words.flatMap fun (word : Nat) => Word.bytes word) = words := by
  induction words with
  | nil => rfl
  | cons word rest ih =>
    have hw := h word (by simp)
    have hword : Word.ofBytes (Word.bytes word) = word := by
      have := Word.ofBytes_bytes word
      unfold Word.unsigned Word.modulus at this
      omega
    have hrest := ih fun w hmem => h w (List.mem_cons_of_mem word hmem)
    calc imageWords ((word :: rest).flatMap fun (word : Nat) => Word.bytes word)
      _ = Word.ofBytes (Word.bytes word) ::
          imageWords (rest.flatMap fun (word : Nat) => Word.bytes word) := rfl
      _ = word :: rest := by rw [hword, hrest]

theorem length_flatMap_bytes (words : List Nat) :
    (words.flatMap fun (word : Nat) => Word.bytes word).length = 4 * words.length := by
  induction words with
  | nil => rfl
  | cons word rest ih =>
    rw [List.flatMap_cons, List.length_append, ih, Word.length_bytes, List.length_cons]
    omega

/-- Words that decode to operations make an image of them. -/
theorem ofImage_flatMap {words : List Nat} {ops : List Operation}
    (h : ∀ word ∈ words, word < 2 ^ 32) (hd : decodeFrom 0 words = .ok ops) :
    ∃ q, ofImage (words.flatMap fun (word : Nat) => Word.bytes word) = .ok q ∧
      q.operations = ops := by
  refine ⟨⟨(ops.map fun o => { o with }).toArray, []⟩, ?_, ?_⟩
  · rw [ofImage]
    rw [if_neg (by rw [length_flatMap_bytes]; omega), imageWords_flatMap h, hd]
    rfl
  · simp [operations, Function.comp_def]

private theorem branchesReach_iff {p : Program} :
    p.BranchesReach ↔ ∀ (k : Nat) o, p.operations[k]? = some o → ¬ Code.TooFar o k := by
  unfold BranchesReach Code.TooFar operations
  constructor
  · rintro hreach k o hk ⟨shape, target, ht, far⟩
    obtain ⟨i, hi, rfl⟩ : ∃ i, p.instructions[k]? = some i ∧ i.toOperation = o := by
      simpa using hk
    exact far (Code.reaches_iff.2 (hreach k i target hi shape ht))
  · intro near k i target hi shape ht
    rw [← Code.reaches_iff]
    refine Decidable.byContradiction fun far => ?_
    exact near k i.toOperation (by simp [hi]) ⟨shape, target, ht, far⟩

/-- In a program of less than 2^26 instructions no branch is too far. -/
theorem branchesReach_of_size_lt {p : Program}
    (h : ∀ i ∈ p.instructions, i.toOperation.WellFormed p.size) (hsize : p.size < 2 ^ 26) :
    p.BranchesReach := by
  intro index i target hi shape ht
  obtain ⟨hindex, rfl⟩ := Array.getElem?_eq_some_iff.1 hi
  obtain ⟨lower, upper⟩ := (h _ (Array.getElem_mem hindex)).inside shape target ht
  unfold size at *
  omega

/-- An assembled program has an image exactly if every branch reaches its target. The image holds
a word of 32 bits for each instruction, and it is read back as a program that does the same. -/
theorem image_round_trip {source : String} {p : Program} (h : ofSource source = .ok p) :
    (p.BranchesReach → ∃ words image q, p.words = .ok words ∧ (∀ word ∈ words, word < 2 ^ 32) ∧
      p.toImage = .ok image ∧ image.length = 4 * p.size ∧
      ofImage image = .ok q ∧ q.sameOperations p = true) ∧
    (¬ p.BranchesReach → ∃ op distance, p.toImage = .error (.branchTooFar op distance)) := by
  have hops : ∀ o ∈ p.operations, o.Assembled p.size := by
    simpa [operations] using ofSource_assembled h
  have hsize : p.operations.length = p.size := by simp [operations, size]
  rcases wordsFrom_cases hops 0 with ⟨near, words, hw, hn, hlt, hd⟩ | ⟨k, o, d, hk, far, he⟩
  · have hreach : p.BranchesReach := branchesReach_iff.2 (by simpa using near)
    refine ⟨fun _ => ?_, fun hfar => absurd hreach hfar⟩
    obtain ⟨q, hq, heq⟩ := ofImage_flatMap hlt hd
    refine ⟨words, _, q, hw, hlt, ?_, ?_, hq, ?_⟩
    · simp only [toImage, Program.words, hw]
      rfl
    · rw [length_flatMap_bytes, hn, hsize]
    · simp [sameOperations, heq]
  · refine ⟨fun hreach => ?_, fun _ => ⟨o.op, d, ?_⟩⟩
    · exact absurd far (by simpa using branchesReach_iff.1 hreach k o hk)
    · simp only [toImage, Program.words, he]
      rfl

theorem image_round_trip_countdown :
    ofSource "loop: sub r1, r1, 1\ncmp r1, 0\nbgt loop" = .ok countdown ∧
      countdown.BranchesReach ∧
      ∃ image q, countdown.toImage = .ok image ∧ image.length = 12 ∧ ofImage image = .ok q ∧
        q.sameOperations countdown = true := by
  have hform : ∀ i ∈ countdown.instructions, i.toOperation.WellFormed countdown.size :=
    fun i hi => (ofSource_assembled ofSource_countdown i hi).wellFormed
  have hreach := branchesReach_of_size_lt hform (by decide)
  obtain ⟨_, image, q, -, -, hi, hl, hq, heq⟩ := (image_round_trip ofSource_countdown).1 hreach
  exact ⟨ofSource_countdown, hreach, image, q, hi, hl, hq, heq⟩

end MiniRisc.Program
