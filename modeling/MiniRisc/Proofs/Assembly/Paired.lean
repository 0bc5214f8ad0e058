import MiniRisc.Proofs.Assembly.Append
import MiniRisc.Proofs.Statement.Paired
/-! Programs of statements that differ in literals only. They have the same labels, and they do the
same exactly if the literals agree in the bits that instructions keep. -/
namespace MiniRisc

def Agree (ps : List (Nat × Nat)) : Prop := ∀ e ∈ ps, e.2 % 2 ^ 16 = e.1 % 2 ^ 16

private theorem agree_append {ps qs : List (Nat × Nat)} : Agree (ps ++ qs) ↔ Agree ps ∧ Agree qs :=
  List.forall_mem_append

theorem Operands.Paired.reference? {shape : Shape} {operands operands' : Operands shape}
    {ps : List (Nat × Nat)} (h : operands.Paired operands' ps) :
    operands'.reference? = operands.reference? := by
  cases h <;> rfl

theorem Statement.Paired.reference? {s s' : Statement} {ps : List (Nat × Nat)}
    (h : s.Paired s' ps) : s'.reference? = s.reference? := by
  cases h with
  | bare label hs hs' => rw [Statement.reference?, Statement.reference?, hs, hs']
  | body label hs hs' hb =>
    rw [Statement.reference?, Statement.reference?, hs, hs']
    cases hb with
    | mk op modifier hoperands => exact hoperands.reference?

namespace Assembly
open Statement
variable {labels : LabelTable} {op : Opcode} {modifier : Modifier} {line : Int} {shape : Shape}
  {ps : List (Nat × Nat)} {s s' : Statement} {ss ss' : List Statement}

private theorem withSource_paired {source source' : Source} (h : source.Paired source' ps)
    (o : Operation) (modifier : Modifier) :
    withSource o modifier source' = withSource o modifier source ↔ Agree ps := by
  cases h with
  | same => simp [Agree]
  | literal p q =>
    simp [withSource, Agree]
    omega

/-- Operands that differ in a literal are resolved alike, to the same operation exactly if the
literal agrees. -/
theorem resolveOperands_paired {operands operands' : Operands shape} {i : Instruction}
    (h : operands.Paired operands' ps)
    (hi : resolveOperands labels op modifier line operands = .ok i) (line' : Int) :
    ∃ i', resolveOperands labels op modifier line' operands' = .ok i' ∧
      (i'.toOperation = i.toOperation ↔ Agree ps) := by
  cases h with
  | three target left h =>
    cases hi
    exact ⟨_, rfl, withSource_paired h _ modifier⟩
  | two register h =>
    cases hi
    exact ⟨_, rfl, withSource_paired h _ modifier⟩
  | address register p q base =>
    cases hi
    refine ⟨_, rfl, ?_⟩
    simp [Agree]
    omega
  | same =>
    have hagree : Agree [] := nofun
    cases operands with
    | branch name =>
      rw [resolveOperands] at hi ⊢
      cases hl : labels.lookup name with
      | none =>
        rw [hl] at hi
        cases hi
      | some index =>
        rw [hl] at hi
        cases hi
        exact ⟨_, rfl, iff_of_true rfl hagree⟩
    | _ =>
      cases hi
      exact ⟨_, rfl, iff_of_true rfl hagree⟩

/-- Statements that differ in literals are resolved alike. -/
theorem resolutions_paired (h : OneByOne Statement.Paired ss ss' ps) {is : List Instruction}
    (hi : ss.filterMap (·.resolution? labels) = is.map .ok) :
    ∃ is' : List Instruction, ss'.filterMap (·.resolution? labels) = is'.map .ok ∧
      (is'.map (·.toOperation) = is.map (·.toOperation) ↔ Agree ps) := by
  induction h generalizing is with
  | nil =>
    obtain rfl := List.map_eq_nil_iff.1 hi.symm
    have hagree : Agree [] := nofun
    exact ⟨[], rfl, iff_of_true rfl hagree⟩
  | cons head tail ih =>
    cases head with
    | bare label hs hs' =>
      rw [List.filterMap_cons_none (by rw [Statement.resolution?, hs]; rfl)] at hi
      rw [List.filterMap_cons_none (by rw [Statement.resolution?, hs']; rfl)]
      exact ih hi
    | body label hs hs' hb =>
      cases hb with
      | mk op modifier hoperands =>
        rw [List.filterMap_cons_some (by rw [Statement.resolution?, hs]; rfl)] at hi
        obtain ⟨i, rest, rfl, hhead, htail⟩ := List.map_eq_cons_iff.1 hi.symm
        obtain ⟨i', hi', hoperation⟩ := resolveOperands_paired hoperands hhead.symm _
        obtain ⟨is', his', hoperations⟩ := ih htail.symm
        refine ⟨i' :: is', ?_, ?_⟩
        · rw [List.filterMap_cons_some (by rw [Statement.resolution?, hs']; rfl), his']
          exact congrArg (· :: _) hi'
        · rw [List.map_cons, List.map_cons, List.cons.injEq, hoperation, hoperations, agree_append]

private theorem definedLabels_paired (h : OneByOne Statement.Paired ss ss' ps) :
    definedLabels ss' = definedLabels ss := by
  induction h with
  | nil => rfl
  | cons head tail ih => rw [definedLabels_cons, definedLabels_cons, ih, head.label]

private theorem references_paired (h : OneByOne Statement.Paired ss ss' ps) :
    references ss' = references ss := by
  induction h with
  | nil => rfl
  | cons head tail ih => rw [references_cons, references_cons, ih, head.reference?]

private theorem labelsFrom_paired (h : OneByOne Statement.Paired ss ss' ps) (index : Nat) :
    labelsFrom index ss' = labelsFrom index ss := by
  induction h generalizing index with
  | nil => rfl
  | cons head tail ih => rw [labelsFrom, labelsFrom, ih, entry, entry, head.label, head.isSome_body]

/-- Where statements are a program, so are statements that differ in literals. -/
theorem program_paired (h : OneByOne Statement.Paired ss ss' ps) {p : Program}
    (hp : program ss = .ok p) :
    ∃ p', program ss' = .ok p' ∧ (p'.operations = p.operations ↔ Agree ps) := by
  obtain ⟨hr, hlabels, hi⟩ := program_eq_ok_iff.1 hp
  obtain ⟨is', hi', hoperations⟩ := resolutions_paired h hi
  refine ⟨⟨is'.toArray, p.labels⟩, program_eq_ok_iff.2 ⟨⟨?_, ?_⟩, ?_, hi'⟩, hoperations⟩
  · rw [definedLabels_paired h]
    exact hr.distinct
  · rw [definedLabels_paired h, references_paired h]
    exact hr.defined
  · rw [labelsFrom_paired h]
    exact hlabels

end Assembly
end MiniRisc
