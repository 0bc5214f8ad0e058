import MiniRisc.Proofs.Instruction.Canonical
import MiniRisc.Proofs.Program.RoundTrip
/-! Which images are programs, and the image of the program that one is: the same image, but for
the bits that no field of its words uses. -/
namespace MiniRisc

namespace Word

/-- Four bytes are the bytes of their word. -/
theorem bytes_ofBytes (a b c d : UInt8) : bytes (ofBytes [a, b, c, d]) = [a, b, c, d] := by
  have ha := a.toNat_lt
  have hb := b.toNat_lt
  have hc := c.toNat_lt
  have hd := d.toNat_lt
  have hvalue : (unsigned (ofBytes [a, b, c, d])).toNat =
      a.toNat + 256 * (b.toNat + 256 * (c.toNat + 256 * d.toNat)) := by
    simp only [unsigned, modulus, ofBytes, List.foldr_cons, List.foldr_nil]
    omega
  simp only [bytes, hvalue, List.cons.injEq, and_true, UInt8.ofNat_eq_iff_mod_eq_toNat]
  omega

end Word

namespace Program

def canonicalImage (image : List UInt8) : List UInt8 :=
  (imageWords image).flatMap fun (word : Nat) => Word.bytes (Code.canonical word)

/-- An image of whole words is the bytes of its words. -/
theorem flatMap_imageWords {image : List UInt8} (h : image.length % 4 = 0) :
    (imageWords image).flatMap (fun (word : Nat) => Word.bytes word) = image := by
  fun_induction imageWords image with
  | case1 a b c d rest ih =>
    have hrest : rest.length % 4 = 0 := by
      simp only [List.length_cons] at h
      omega
    rw [List.flatMap_cons, ih hrest, Word.bytes_ofBytes]
    rfl
  | case2 image hshort =>
    match image with
    | [] => rfl
    | [_] | [_, _] | [_, _, _] => simp at h
    | a :: b :: c :: d :: rest => exact absurd rfl (hshort a b c d rest)

section Words
variable {index : Nat} {words : List Nat}

private theorem imageWords_canonicalImage (image : List UInt8) :
    imageWords (canonicalImage image) =
      (imageWords image).map fun (word : Nat) => Code.canonical word := by
  rw [canonicalImage, ← List.flatMap_map (fun (word : Nat) => Code.canonical word)
    (fun (word : Nat) => Word.bytes word)]
  apply imageWords_flatMap
  intro word hm
  obtain ⟨other, -, rfl⟩ := List.mem_map.1 hm
  exact Code.canonical_lt other

private theorem canonicalImage_canonicalImage (image : List UInt8) :
    canonicalImage (canonicalImage image) = canonicalImage image := by
  conv =>
    lhs
    rw [canonicalImage, imageWords_canonicalImage, List.flatMap_map]
  simp only [Code.canonical_canonical]
  rfl

private theorem length_canonicalImage (image : List UInt8) :
    (canonicalImage image).length = 4 * (imageWords image).length := by
  rw [canonicalImage, ← List.flatMap_map (fun (word : Nat) => Code.canonical word)
    (fun (word : Nat) => Word.bytes word), length_flatMap_bytes, List.length_map]

private theorem decodeFrom_canonical (index : Nat) (words : List Nat) :
    decodeFrom index (words.map fun (word : Nat) => Code.canonical word) =
      decodeFrom index words := by
  induction words generalizing index with
  | nil => rfl
  | cons word rest ih => rw [List.map_cons, decodeFrom, decodeFrom, ih, Code.decode_canonical]

/-- Words decode to operations that have the canonical words, or one of them is refused. -/
theorem decodeFrom_cases (index : Nat) (words : List Nat) :
    ((∀ word ∈ words, ¬ Code.Refused word) ∧ ∃ ops, decodeFrom index words = .ok ops ∧
      wordsFrom index ops = .ok (words.map fun (word : Nat) => Code.canonical word)) ∨
    (∃ word ∈ words, Code.Refused word) ∧ ∃ fault, decodeFrom index words = .error fault ∧
      fault ≠ .missingOperand := by
  -- A branch is decoded and encoded by its own index, which moves along the words.
  induction words generalizing index with
  | nil => exact .inl ⟨by simp, [], rfl, rfl⟩
  | cons word rest ih =>
    rw [decodeFrom]
    rcases Code.decode_cases word index with ⟨hr, fault, hd, hf⟩ | ⟨hr, o, hd, he⟩
    · refine .inr ⟨⟨word, List.mem_cons_self, hr⟩, fault.raised, by rw [hd]; rfl, ?_⟩
      rcases Code.raised_cases hf with ⟨-, hraised⟩ | ⟨-, hraised⟩
      · rw [hraised]
        rcases hf with rfl | rfl <;> simp
      · rw [hraised]
        simp
    · rw [hd]
      rcases ih (index + 1) with ⟨hrest, ops, hds, hws⟩ | ⟨⟨w, hm, hr⟩, fault, hds, hf⟩
      · rw [hds]
        refine .inl ⟨?_, o :: ops, rfl, ?_⟩
        · intro w hm
          rcases List.mem_cons.1 hm with rfl | hm
          · exact hr
          · exact hrest w hm
        · rw [wordsFrom, he, hws]
          rfl
      · rw [hds]
        exact .inr ⟨⟨w, List.mem_cons_of_mem word hm, hr⟩, fault, rfl, hf⟩

end Words

/-- An image is a program if it consists of whole words that decode, and then the image of the
program is the canonical one, which is the same program. -/
theorem ofImage_cases (image : List UInt8) :
    (image.length % 4 = 0 ∧ (∀ word ∈ imageWords image, ¬ Code.Refused word) ∧
      ∃ p, ofImage image = .ok p ∧ p.toImage = .ok (canonicalImage image)) ∨
    (image.length % 4 ≠ 0 ∨ ∃ word ∈ imageWords image, Code.Refused word) ∧
      ∃ fault, ofImage image = .error fault ∧ fault ≠ .missingOperand := by
  rw [ofImage]
  by_cases hl : image.length % 4 = 0
  · rw [if_neg (not_not_intro hl)]
    rcases decodeFrom_cases 0 (imageWords image) with ⟨hn, ops, hd, hw⟩ | ⟨hr, fault, hd, hf⟩
    · rw [hd]
      refine .inl ⟨hl, hn, _, rfl, ?_⟩
      have hops : operations ⟨(ops.map fun o => { o with }).toArray, []⟩ = ops := by
        simp [operations, Function.comp_def]
      rw [toImage, words, hops, hw]
      apply congrArg Except.ok
      rw [canonicalImage, List.flatMap_map]
    · rw [hd]
      exact .inr ⟨.inr hr, fault, rfl, hf⟩
  · rw [if_pos hl]
    exact .inr ⟨.inl hl, _, rfl, by simp⟩

private theorem ofImage_canonicalImage {image : List UInt8} (h : image.length % 4 = 0) :
    ofImage (canonicalImage image) = ofImage image := by
  have hl : (canonicalImage image).length % 4 = 0 := by
    rw [length_canonicalImage]
    omega
  rw [ofImage, ofImage, if_neg (not_not_intro hl), if_neg (not_not_intro h),
    imageWords_canonicalImage, decodeFrom_canonical]

/-- The words that decode are those with an operation, and with a modifier where an immediate
follows. All others are refused, by a fault that names the index if it has no more digits than can
be written, and for the number of its digits if it has. Encoding what a word decodes to gives the
word of 32 bits with its unused bits cleared, and that word decodes to the same. An image is a
program if it consists of whole words that decode; its canonical image, with the unused bits
cleared, is the image of the program and stays as it is when it is made canonical again. -/
theorem decoding_exact (word index : Int) (image : List UInt8) :
    (((∃ fault, Code.decode word index = .error fault) ↔ Code.Refused word) ∧
      (∀ fault, Code.decode word index = .error fault →
        (index.natAbs < 10 ^ Text.digitLimit ∧
          (fault = .unknownOpcode index (Code.field word 27 5) ∨ fault = .invalidModifier index)) ∨
        (10 ^ Text.digitLimit ≤ index.natAbs ∧ fault = .numeral .writing)) ∧
      (∀ o, Code.decode word index = .ok o → Code.encode o index = .ok (Code.canonical word) ∧
        Code.decode (Code.canonical word) index = .ok o) ∧
      ∀ k, (Code.canonical word).testBit k =
        (decide (Code.unusedBits word ≤ k) && (Code.low 32 word).testBit k)) ∧
    ((∃ p, ofImage image = .ok p) ↔
        image.length % 4 = 0 ∧ ∀ word ∈ imageWords image, ¬ Code.Refused word) ∧
      (∀ fault, ofImage image = .error fault → fault ≠ .missingOperand) ∧
      ∀ p, ofImage image = .ok p →
        (imageWords image).flatMap (fun (word : Nat) => Word.bytes word) = image ∧
        p.toImage = .ok (canonicalImage image) ∧
        imageWords (canonicalImage image) =
          (imageWords image).map (fun (word : Nat) => Code.canonical word) ∧
        ofImage (canonicalImage image) = .ok p ∧
        canonicalImage (canonicalImage image) = canonicalImage image := by
  constructor
  · refine ⟨?_, ?_, ?_, Code.testBit_canonical word⟩
    all_goals
      rcases Code.decode_cases word index with ⟨hr, fault, hd, hf⟩ | ⟨hr, o, hd, he⟩
    · exact ⟨fun _ => hr, fun _ => ⟨_, hd⟩⟩
    · simp [hd, hr]
    · intro other ho
      obtain rfl := Except.error.inj (hd.symm.trans ho)
      rcases Code.raised_cases hf with ⟨short, hraised⟩ | ⟨long, hraised⟩
      · exact .inl ⟨short, hraised.symm ▸ hf⟩
      · exact .inr ⟨long, hraised⟩
    · simp [hd]
    · simp [hd]
    · intro o' ho
      obtain rfl := Except.ok.inj (hd.symm.trans ho)
      exact ⟨he, (Code.decode_canonical word index).trans hd⟩
  · rcases ofImage_cases image with ⟨hl, hn, p, hp, hi⟩ | ⟨hr, fault, hf, hne⟩
    · refine ⟨⟨fun _ => ⟨hl, hn⟩, fun _ => ⟨p, hp⟩⟩, by simp [hp], ?_⟩
      intro q hq
      obtain rfl := Except.ok.inj (hp.symm.trans hq)
      exact ⟨flatMap_imageWords hl, hi, imageWords_canonicalImage image,
        (ofImage_canonicalImage hl).trans hp, canonicalImage_canonicalImage image⟩
    · refine ⟨⟨fun ⟨p, hp⟩ => ?_, fun ⟨hl, hn⟩ => ?_⟩, ?_, ?_⟩
      · cases hp.symm.trans hf
      · rcases hr with hr | ⟨word, hm, hr⟩
        · exact absurd hl hr
        · exact absurd hr (hn word hm)
      · intro other ho
        exact Except.error.inj (hf.symm.trans ho) ▸ hne
      · intro p hp
        cases hp.symm.trans hf

/-- A word without an operation is refused at every index, but what is raised where the index has
more digits than can be written does not tell the word. -/
theorem decode_farIndex : Code.Refused 0xB0000000 ∧
    Code.decode 0xB0000000 ((10 ^ Text.digitLimit : Nat) : Int) = .error (.numeral .writing) := by
  have hop : Opcode.ofNumber? (Code.field 0xB0000000 27 5) = none := by decide
  refine ⟨.inl (by decide), ?_⟩
  -- The limit stays a power: its digits are never written out.
  generalize hindex : (10 ^ Text.digitLimit : Nat) = index
  have hlong : ¬ Text.isWritable (index : Int) = true :=
    Text.not_isWritable_of_le hindex.le (Int.natAbs_natCast index)
  simp only [Code.decode, hop]
  exact congrArg Except.error (if_neg hlong)

end Program
end MiniRisc
