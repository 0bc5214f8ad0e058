import MiniRisc.Proofs.Assembly.Append
import MiniRisc.Proofs.Assembly.Printing
import MiniRisc.Proofs.Machine.Fault
import MiniRisc.Proofs.Machine.Next
import MiniRisc.Proofs.Statement.Order
/-! The lines of programs. Instructions have the lines of the statements that they come from, in the
same order, and so the line of a fault tells the one statement that it comes from. -/
namespace MiniRisc

/-- A fault of a machine is told with the line of one statement only, which is that of the
instruction that the machine stands at. -/
def Fault.IsOf (ss : List Statement) (m : Machine) (f : Fault) : Prop :=
  ∃ front s back i, ss = front ++ s :: back ∧ f.line = s.line ∧
    f.pc = m.state.registers.pc ∧ f.pc = Assembly.bodyCount front ∧ m.current? = some i ∧
    s.resolution? m.program.labels = some (.ok i) ∧
    ∀ front' s' back', ss = front' ++ s' :: back' → s'.line = f.line → front' = front ∧ s' = s

namespace Assembly
variable {ss front front' back back' : List Statement} {s s' : Statement} {p : Program}
  {is : List Instruction} {i : Instruction} {labels : LabelTable} {k : Nat}

private theorem line_of_resolution (h : s.resolution? labels = some (.ok i)) : i.line = s.line := by
  obtain ⟨b, -, hi⟩ := Option.map_eq_some_iff.1 h
  have hline := resolveOperands_line hi s.line
  rw [hi] at hline
  exact congrArg Instruction.line (Except.ok.inj hline)

/-- Instructions are on the lines of their statements, in order. -/
theorem lines_sublist (h : ss.filterMap (·.resolution? labels) = is.map .ok) :
    (is.map (·.line)).Sublist (ss.map (·.line)) := by
  induction ss generalizing is with
  | nil =>
    obtain rfl := List.map_eq_nil_iff.1 h.symm
    exact .slnil
  | cons s rest ih =>
    rw [List.filterMap_cons] at h
    cases hs : s.resolution? labels with
    | none =>
      rw [hs] at h
      exact (ih h).cons _
    | some r =>
      rw [hs] at h
      obtain ⟨i, is, rfl, rfl, his⟩ := List.map_eq_cons_iff.1 h.symm
      rw [List.map_cons, List.map_cons, line_of_resolution hs]
      exact (ih his.symm).cons_cons _

/-- Every instruction comes from a statement behind as many others with a body as its index
tells. -/
theorem exists_statement (h : ss.filterMap (·.resolution? labels) = is.map .ok)
    (hi : is[k]? = some i) : ∃ front s back, ss = front ++ s :: back ∧ bodyCount front = k ∧
      s.resolution? labels = some (.ok i) := by
  induction ss generalizing is k with
  | nil =>
    obtain rfl := List.map_eq_nil_iff.1 h.symm
    cases hi
  | cons s rest ih =>
    rw [List.filterMap_cons] at h
    cases hs : s.resolution? labels with
    | none =>
      rw [hs] at h
      obtain ⟨front, t, back, rfl, hcount, ht⟩ := ih h hi
      refine ⟨s :: front, t, back, rfl, ?_, ht⟩
      rw [← hcount, bodyCount_eq_length labels, bodyCount_eq_length labels, List.filterMap_cons, hs]
    | some r =>
      rw [hs] at h
      obtain ⟨j, is, rfl, rfl, his⟩ := List.map_eq_cons_iff.1 h.symm
      cases k with
      | zero =>
        cases hi
        exact ⟨[], s, rest, rfl, rfl, hs⟩
      | succ k =>
        obtain ⟨front, t, back, rfl, hcount, ht⟩ := ih his.symm hi
        refine ⟨s :: front, t, back, rfl, ?_, ht⟩
        rw [← hcount, bodyCount_eq_length labels, bodyCount_eq_length labels,
          List.filterMap_cons, hs]
        rfl

/-- In statements on lines that go up, a line tells the statement. -/
theorem place_unique (ordered : ss.Pairwise (·.line < ·.line)) (h : ss = front ++ s :: back)
    (h' : ss = front' ++ s' :: back') (hl : s'.line = s.line) : front' = front ∧ s' = s := by
  have hbefore {front back : List Statement} {s t : Statement} (hs : ss = front ++ s :: back)
      (ht : t ∈ front) : t.line < s.line :=
    (List.pairwise_append.1 (hs ▸ ordered)).2.2 t ht s List.mem_cons_self
  rcases places_cases (h.symm.trans h') with ⟨rfl, rfl⟩ | ⟨mid, rfl⟩ | ⟨mid, rfl⟩
  · exact ⟨rfl, rfl⟩
  · have hlt := hbefore h' (t := s) (by simp)
    exact absurd hl.symm (Int.ne_of_lt hlt)
  · have hlt := hbefore h (t := s') (by simp)
    exact absurd hl (Int.ne_of_lt hlt)

end Assembly

namespace Machine
variable {m : Machine} {t : Trouble}

/-- A run that fails ends with a step that fails. -/
theorem exists_step_of_runFor {n : Nat} (h : (m.runFor n).1 = .error t) : ∃ u : Machine,
    u.program = m.program ∧ u.step.1 = .error t ∧ (m.runFor n).2 = u.step.2 := by
  induction n generalizing m with
  | zero => cases h
  | succ n ih =>
    cases hm : m.halted with
    | true =>
      rw [runFor_of_halted hm] at h
      cases h
    | false =>
      cases hs : m.step.1 with
      | error t' =>
        rw [runFor_of_error hm hs] at h ⊢
        cases h
        exact ⟨m, rfl, hs, rfl⟩
      | ok stop =>
        rw [runFor_of_ok hm hs] at h ⊢
        obtain ⟨u, hu, hstep, hrun⟩ := ih h
        exact ⟨u, hu.trans m.step_program, hstep, hrun⟩

private theorem isOf_of_step {ss : List Statement} {f : Fault}
    (ordered : ss.Pairwise (·.line < ·.line))
    (hp : Assembly.program ss = .ok m.program) (h : m.step.1 = .error (.fault f)) :
    f.IsOf ss m.step.2 := by
  obtain ⟨-, -, hresolutions⟩ := Assembly.program_eq_ok_iff.1 hp
  obtain ⟨hpc, i, hi, hline⟩ := place_of_fault h
  have hstate := step_error_state h
  have hfetch : m.program.instructions.toList[m.state.registers.pc.toNat]? = some i ∧
      0 ≤ m.state.registers.pc := by
    unfold current? Program.fetch? at hi
    split at hi
    · rename_i hnonneg
      exact ⟨by simpa using hi, hnonneg⟩
    · cases hi
  obtain ⟨front, s, back, hsplit, hcount, hs⟩ := Assembly.exists_statement hresolutions hfetch.1
  have hsame : f.line = s.line := hline.trans (Assembly.line_of_resolution hs)
  have hcurrent : m.step.2.current? = some i := by
    rw [current?, step_program, hstate]
    exact hi
  refine ⟨front, s, back, i, hsplit, hsame, ?_, ?_, hcurrent, ?_, fun front' s' back' hsplit' hl =>
    Assembly.place_unique ordered hsplit hsplit' (hl.trans hsame)⟩
  · rw [hpc, hstate]
  · rw [hpc, hcount, Int.toNat_of_nonneg hfetch.2]
  · rw [step_program]
    exact hs

end Machine

namespace Program
variable {source : String} {ss : List Statement}

/-- Every statement of a source text has the number and the trimmed text of the line that its first
word is on, its label or else its mnemonic, and the statements are on lines that go up. So are the
instructions of the program, and the line of a fault in a step or in a run tells the one statement
whose instruction failed. -/
theorem lines_faithful (h : Statement.ofSource source = .ok ss) :
    (∃ tokens rows, Token.ofSource source = .ok tokens ∧ Statement.Lines rows tokens ∧
      Statement.Derives (Text.lines source) rows ss ∧ ∀ s ∈ ss, s.Mapped source rows) ∧
    ss.Pairwise (·.line < ·.line) ∧
    ∀ p, ofSource source = .ok p → p.instructions.toList.Pairwise (·.line < ·.line) ∧
      ∀ (m : Machine) (f : Fault), m.program = p →
        (m.step.1 = .error (.fault f) → f.IsOf ss m.step.2) ∧
        ∀ n, (m.runFor n).1 = .error (.fault f) → f.IsOf ss (m.runFor n).2 := by
  obtain ⟨tokens, rows, ht, hlines, hderives, hmapped, ordered⟩ := Statement.ofSource_mapped h
  refine ⟨⟨tokens, rows, ht, hlines, hderives, hmapped⟩, ordered, fun p hp => ?_⟩
  obtain ⟨ss', hss', hp⟩ := Outcome.bind_eq_ok_iff.1 hp
  obtain rfl := Except.ok.inj (hss'.symm.trans h)
  refine ⟨?_, fun m f hm => ?_⟩
  · obtain ⟨-, -, hresolutions⟩ := Assembly.program_eq_ok_iff.1 hp
    have hmap := List.pairwise_map.2 ordered
    exact List.pairwise_map.1 (hmap.sublist (Assembly.lines_sublist hresolutions))
  · subst hm
    refine ⟨Machine.isOf_of_step ordered hp, fun n hn => ?_⟩
    obtain ⟨u, hu, hstep, hrun⟩ := Machine.exists_step_of_runFor hn
    rw [hrun]
    exact Machine.isOf_of_step ordered (hu ▸ hp) hstep

/-- A load behind a statement that a comment goes on to the next line in, and behind lines without
statements. -/
def strayLines : List Statement :=
  [⟨1, "start: /* one", some "start", some ⟨.mov, .signed, .two 1 (.immediate 2)⟩⟩,
    ⟨5, "ld r2, 0[r1]", none, some ⟨.ld, .signed, .address 2 0 1⟩⟩]

def strayProgram : Program :=
  ⟨#[{ op := .mov, rd := 1, imm := some 2, line := 1 },
    { op := .ld, rd := 2, rs1 := 1, imm := some 0, line := 5 }], [("start", 0)]⟩

theorem lines_faithful_stray :
    Statement.ofSource "start: /* one\n two */ mov r1, 2\n\n@ none\n ld r2, 0[r1]" =
      .ok strayLines ∧
    ofSource "start: /* one\n two */ mov r1, 2\n\n@ none\n ld r2, 0[r1]" = .ok strayProgram ∧
    ((Machine.start strayProgram {} {}).runFor 5).1 = .error (.fault ⟨.unaligned 2, 1, 5⟩) ∧
    Fault.IsOf strayLines ((Machine.start strayProgram {} {}).runFor 5).2
      ⟨.unaligned 2, 1, 5⟩ := by
  have h : Statement.ofSource "start: /* one\n two */ mov r1, 2\n\n@ none\n ld r2, 0[r1]" =
      .ok strayLines := by cbv
  have hp : ofSource "start: /* one\n two */ mov r1, 2\n\n@ none\n ld r2, 0[r1]" =
      .ok strayProgram := by cbv
  have hrun : ((Machine.start strayProgram {} {}).runFor 5).1 =
      .error (.fault ⟨.unaligned 2, 1, 5⟩) := rfl
  exact ⟨h, hp, hrun, (((lines_faithful h).2.2 _ hp).2 _ _ rfl).2 5 hrun⟩

end Program
end MiniRisc
