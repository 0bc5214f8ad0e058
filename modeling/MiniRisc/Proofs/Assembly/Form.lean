import Mathlib
import MiniRisc.Assembly.Basic
import MiniRisc.Proofs.Instruction.Form
import MiniRisc.Proofs.Outcome
import MiniRisc.Proofs.Statement.Legal
/-! The form of assembled programs, and the kinds of diagnostics that there are instead. -/
namespace MiniRisc
namespace Assembly

def bodyCount (ss : List Statement) : Nat := ss.countP fun s => s.body.isSome

theorem bodyCount_cons (s : Statement) (ss : List Statement) (index : Nat) :
    (if s.body.isSome then index + 1 else index) + bodyCount ss =
      index + bodyCount (s :: ss) := by
  unfold bodyCount
  rw [List.countP_cons]
  split <;> omega

/-- A label is bound at most to the index behind the last instruction. -/
theorem bindLabels_le {labels labels' : LabelTable} {index bound : Nat} {ss : List Statement}
    (h : bindLabels labels index ss = (labels', none)) (hl : ∀ e ∈ labels, e.2 ≤ bound)
    (hb : index + bodyCount ss ≤ bound) : ∀ e ∈ labels', e.2 ≤ bound := by
  induction ss generalizing labels index with
  | nil =>
    cases h
    exact hl
  | cons s rest ih =>
    rw [← bodyCount_cons] at hb
    simp only [bindLabels] at h
    split at h
    · exact ih h hl hb
    · rename_i name _
      split at h
      · cases h
      · refine ih h ?_ hb
        intro e he
        rcases List.mem_append.1 he with he | he
        · exact hl e he
        · obtain rfl := List.mem_singleton.1 he
          have : index ≤ if s.body.isSome then index + 1 else index := by split <;> omega
          simp only
          omega

private theorem lookup_le {labels : LabelTable} {bound : Nat} (hl : ∀ e ∈ labels, e.2 ≤ bound)
    {name : String} {index : Nat} (h : labels.lookup name = some index) : index ≤ bound := by
  obtain ⟨front, behind, rfl, -⟩ := List.lookup_eq_some_iff.1 h
  exact hl (name, index) (by simp)

private theorem withSource_assembled {size : Nat} {op : Opcode} {modifier : Modifier}
    (takes : op.takesSource) (rd rs1 : Register) (unused : op.LeavesUnused rd rs1) (source : Source)
    (legal : modifier ≠ .signed → op.modifiable) :
    (withSource { op, rd := rd.val, rs1 := rs1.val } modifier source).Assembled size := by
  cases source with
  | register r => exact .register takes rd rs1 r unused
  | immediate pattern =>
    exact .immediate takes modifier legal rd rs1 unused (Nat.mod_lt pattern (by decide))

/-- Legal operands are resolved to an operation of the assembler's form. -/
theorem resolveOperands_assembled {labels : LabelTable} {size : Nat} {op : Opcode}
    {modifier : Modifier} {line : Int} {shape : Shape} (hs : op.shape = shape)
    {operands : Operands shape} {i : Instruction}
    (legal : modifier ≠ .signed → op.modifiable)
    (hl : ∀ name index, labels.lookup name = some index → index ≤ size)
    (h : resolveOperands labels op modifier line operands = .ok i) :
    i.toOperation.Assembled size := by
  cases operands with
  | three target left right =>
    cases h
    have unused : op.LeavesUnused target left := by
      constructor
      · rintro rfl; cases hs
      · rintro (rfl | rfl) <;> cases hs
    exact withSource_assembled (by simp [Opcode.takesSource, hs]) target left unused right legal
  | two register source =>
    cases h
    have takes : op.takesSource := by simp [Opcode.takesSource, hs]
    by_cases hop : op = .cmp
    · simp only [hop, ↓reduceIte]
      subst op
      exact withSource_assembled takes 0 register ⟨fun _ => rfl, by simp⟩ source legal
    · simp only [hop, ↓reduceIte]
      exact withSource_assembled takes register 0 ⟨fun h => absurd h hop, fun _ => rfl⟩ source legal
  | address register displacement base =>
    cases h
    exact .address hs register base (Nat.mod_lt displacement (by decide))
  | branch name =>
    rw [resolveOperands] at h
    split at h
    · cases h
    · rename_i index hi
      cases h
      exact .branch hs (hl name index hi)
  | bare =>
    cases h
    exact .bare hs

/-- Every statement with a body becomes one instruction, of the assembler's form. -/
theorem resolve_assembled {labels : LabelTable} {size : Nat} {ss : List Statement}
    {is : List Instruction} (h : resolve labels ss = .ok is) (legal : ∀ s ∈ ss, s.Legal)
    (hl : ∀ name index, labels.lookup name = some index → index ≤ size) :
    is.length = bodyCount ss ∧ ∀ i ∈ is, i.toOperation.Assembled size := by
  induction ss generalizing is with
  | nil =>
    cases h
    simp [bodyCount]
  | cons s rest ih =>
    have hrest : ∀ s ∈ rest, s.Legal := fun t ht => legal t (List.mem_cons_of_mem s ht)
    rw [resolve] at h
    split at h
    · rename_i hb
      obtain ⟨hn, hi⟩ := ih h hrest
      exact ⟨by rw [hn, bodyCount, bodyCount, List.countP_cons]; simp [hb], hi⟩
    · rename_i body hb
      split at h
      · cases h
      · rename_i i hr
        obtain ⟨tail, ht, rfl⟩ := Outcome.map_eq_ok_iff.1 h
        obtain ⟨hn, hi⟩ := ih ht hrest
        refine ⟨?_, ?_⟩
        · rw [List.length_cons, hn, bodyCount, bodyCount, List.countP_cons]
          simp [hb]
        · intro j hj
          rcases List.mem_cons.1 hj with rfl | hj
          · have lawful := legal s (by simp) body hb
            exact resolveOperands_assembled rfl (fun hm => (lawful hm).1) hl hr
          · exact hi j hj

private theorem bindLabels_error {labels labels' : LabelTable} {index : Nat} {ss : List Statement}
    {d : Diagnostic} (h : bindLabels labels index ss = (labels', some d)) :
    ∃ name, d.cause = .duplicateLabel name := by
  induction ss generalizing labels index with
  | nil => cases h
  | cons s rest ih =>
    simp only [bindLabels] at h
    split at h
    · exact ih h
    · rename_i name _
      split at h
      · cases h
        exact ⟨name, rfl⟩
      · exact ih h

theorem resolve_error {labels : LabelTable} {ss : List Statement} {d : Diagnostic}
    (h : resolve labels ss = .error d) : ∃ name, d.cause = .undefinedLabel name := by
  induction ss with
  | nil => cases h
  | cons s rest ih =>
    rw [resolve] at h
    split at h
    · exact ih h
    · split at h
      · rename_i name _
        cases h
        exact ⟨name, rfl⟩
      · exact ih (Outcome.map_eq_error_iff.1 h)

/-- Assembly of statements fails only for a label. -/
theorem program_error {ss : List Statement} {d : Diagnostic} (h : program ss = .error d) :
    ∃ name, d.cause = .duplicateLabel name ∨ d.cause = .undefinedLabel name := by
  rw [program] at h
  split at h
  · rename_i hb
    cases h
    obtain ⟨name, hn⟩ := bindLabels_error hb
    exact ⟨name, .inl hn⟩
  · obtain ⟨name, hn⟩ := resolve_error (Outcome.map_eq_error_iff.1 h)
    exact ⟨name, .inr hn⟩

private theorem program_assembled {ss : List Statement} {p : Program} (h : program ss = .ok p)
    (legal : ∀ s ∈ ss, s.Legal) : ∀ i ∈ p.instructions, i.toOperation.Assembled p.size := by
  rw [program] at h
  split at h
  · cases h
  · rename_i labels hb
    obtain ⟨is, hr, rfl⟩ := Outcome.map_eq_ok_iff.1 h
    have bounded : ∀ e ∈ labels, e.2 ≤ bodyCount ss :=
      bindLabels_le hb (by simp) (by omega)
    obtain ⟨hn, hi⟩ := resolve_assembled hr legal fun _ _ hx => lookup_le bounded hx
    simpa [Program.size, hn] using hi

end Assembly

namespace Program

/-- Every instruction of an assembled program is of the assembler's form. -/
theorem ofSource_assembled {source : String} {p : Program} (h : ofSource source = .ok p) :
    ∀ i ∈ p.instructions, i.toOperation.Assembled p.size := by
  obtain ⟨ss, hs, hp⟩ := Outcome.bind_eq_ok_iff.1 h
  exact Assembly.program_assembled hp (Statement.ofSource_legal hs)

def countdown : Program where
  instructions := #[
    { op := .sub, rd := 1, rs1 := 1, imm := some 1, line := 1 },
    { op := .cmp, rs1 := 1, imm := some 0, line := 2 },
    { op := .bgt, imm := some 0, line := 3, label := some "loop" }]
  labels := [("loop", 0)]

theorem ofSource_countdown :
    ofSource "loop: sub r1, r1, 1\ncmp r1, 0\nbgt loop" = .ok countdown := by
  cbv

theorem ofSource_of_unread {source : String} {d : Diagnostic}
    (h : Token.ofSource source = .error d) : ofSource source = .error d := by
  rw [ofSource, Statement.ofSource, h]
  rfl

end Program
end MiniRisc
