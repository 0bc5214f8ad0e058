import MiniRisc.Proofs.Assembly.Append
import MiniRisc.Proofs.Program.RoundTrip
/-! Programs of source texts one below the other. Only distances to targets enter the words of an
image, so the image of both is the image of the one and then that of the other. -/
namespace MiniRisc.Program

section Images
variable {n index : Nat} {front back : List Operation} {words words' : List Nat}

/-- A displaced operation has the same word at the displaced index. -/
theorem encode_displaced (n : Nat) (o : Operation) (index : Int) :
    Code.encode (o.displaced n) (index + n) = Code.encode o index := by
  unfold Code.encode Operation.displaced
  cases hs : o.op.shape with
  | branch =>
    cases o.imm with
    | none => rfl
    | some target =>
      simp only [↓reduceIte, Option.map_some, Int.add_sub_add_right]
  | _ => rfl

private theorem wordsFrom_displaced (n index : Nat) (ops : List Operation) :
    wordsFrom (index + n) (ops.map (Operation.displaced n)) = wordsFrom index ops := by
  induction ops generalizing index with
  | nil => rfl
  | cons o rest ih =>
    have hnext : index + n + 1 = index + 1 + n := by omega
    rw [List.map_cons, wordsFrom, wordsFrom, hnext, ih, Int.natCast_add, encode_displaced]

private theorem wordsFrom_append (h : wordsFrom index front = .ok words)
    (h' : wordsFrom (index + front.length) back = .ok words') :
    wordsFrom index (front ++ back) = .ok (words ++ words') := by
  induction front generalizing index words with
  | nil =>
    cases h
    exact h'
  | cons o front ih =>
    obtain ⟨word, hword, h⟩ := Outcome.bind_eq_ok_iff.1 h
    obtain ⟨rest, hrest, h⟩ := Outcome.bind_eq_ok_iff.1 h
    cases h
    have hindex : index + (o :: front).length = index + 1 + front.length := by
      rw [List.length_cons]
      omega
    rw [List.cons_append, wordsFrom, hword, ih hrest (hindex ▸ h')]
    rfl

end Images

private theorem toImage_append {p q r : Program} {front back : List UInt8} {k : Nat}
    (hr : r.instructions = p.instructions ++ q.instructions.map (Instruction.displaced p.size k))
    (hp : p.toImage = .ok front) (hq : q.toImage = .ok back) : r.toImage = .ok (front ++ back) := by
  obtain ⟨words, hwords, hp⟩ := Outcome.bind_eq_ok_iff.1 hp
  obtain ⟨words', hwords', hq⟩ := Outcome.bind_eq_ok_iff.1 hq
  cases hp
  cases hq
  have hops : r.operations = p.operations ++ q.operations.map (Operation.displaced p.size) := by
    simp [operations, hr, Instruction.displaced]
  have hlength : p.operations.length = p.size := by simp [operations, size]
  have hdisplaced : wordsFrom (0 + p.operations.length)
      (q.operations.map (Operation.displaced p.size)) = .ok words' := by
    rw [hlength, wordsFrom_displaced]
    exact hwords'
  have hboth : r.words = .ok (words ++ words') := by
    rw [Program.words, hops]
    exact wordsFrom_append hwords hdisplaced
  rw [toImage, hboth]
  exact congrArg Except.ok List.flatMap_append

/-- Two source texts that are programs and define no label in common are one program, the second
from the next line on. Its instructions and labels are those of the first and then those of the
second, with the targets of its branches and its labels displaced by the size of the first, and its
lines by the number of lines above them. If both have images, the image of all is the first and then
the second. -/
theorem ofSource_below {above under : String} {p q : Program} (hp : ofSource above = .ok p)
    (hq : ofSource under = .ok q)
    (hd : ∀ name ∈ p.labels.map Prod.fst, name ∉ q.labels.map Prod.fst) :
    ∃ r, ofSource (above ++ "\n" ++ under) = .ok r ∧
      r.instructions = p.instructions ++ q.instructions.map (Instruction.displaced p.size
        ((Text.foldNewlines (above ++ "\n").toList).count '\n')) ∧
      r.labels = p.labels ++ q.labels.displaced p.size ∧
      ∀ front back, p.toImage = .ok front → q.toImage = .ok back →
        r.toImage = .ok (front ++ back) := by
  obtain ⟨ss, hss, hp⟩ := Outcome.bind_eq_ok_iff.1 hp
  obtain ⟨ss', hss', hq⟩ := Outcome.bind_eq_ok_iff.1 hq
  have hboth := Assembly.program_append hp hq hd (Text.lines (above ++ "\n" ++ under))
    ((Text.foldNewlines (above ++ "\n").toList).count '\n')
  refine ⟨_, Outcome.bind_eq_ok_iff.2 ⟨_, Statement.ofSource_line hss hss', hboth⟩, rfl, rfl, ?_⟩
  intro front back hfront hback
  exact toImage_append rfl hfront hback

def standstill : Program where
  instructions := #[{ op := .b, imm := some 0, line := 2, label := some "wait" }]
  labels := [("wait", 0)]

theorem ofSource_below_countdown :
    ofSource "loop: sub r1, r1, 1\ncmp r1, 0\nbgt loop" = .ok countdown ∧
      ofSource "wait: @ for ever\r\nb wait" = .ok standstill ∧
      (∀ name ∈ countdown.labels.map Prod.fst, name ∉ standstill.labels.map Prod.fst) ∧
      ∃ r front back, ofSource ("loop: sub r1, r1, 1\ncmp r1, 0\nbgt loop" ++ "\n" ++
          "wait: @ for ever\r\nb wait") = .ok r ∧
        r.labels = [("loop", 0), ("wait", 3)] ∧
        r.instructions.toList = countdown.instructions.toList ++
          [{ op := .b, imm := some 3, line := 5, label := some "wait" }] ∧
        countdown.toImage = .ok front ∧ standstill.toImage = .ok back ∧
        r.toImage = .ok (front ++ back) := by
  have hq : ofSource "wait: @ for ever\r\nb wait" = .ok standstill := by cbv
  have hd : ∀ name ∈ countdown.labels.map Prod.fst,
      name ∉ standstill.labels.map Prod.fst := by decide
  obtain ⟨r, hr, hi, hl, himage⟩ := ofSource_below ofSource_countdown hq hd
  have hcount : (Text.foldNewlines
      ("loop: sub r1, r1, 1\ncmp r1, 0\nbgt loop" ++ "\n").toList).count '\n' = 3 := by cbv
  rw [hcount] at hi
  refine ⟨ofSource_countdown, hq, hd, r, _, _, hr, hl, ?_, rfl, rfl, himage _ _ rfl rfl⟩
  rw [hi, Array.toList_append, Array.toList_map]
  rfl

end MiniRisc.Program
