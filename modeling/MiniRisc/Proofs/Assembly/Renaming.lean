import MiniRisc.Assembly.Basic
import MiniRisc.Proofs.Statement.Renaming
/-! Programs of renamed statements. Their instructions do the same, at the same lines, and their
labels are the renamed ones, at the same instructions. -/
namespace MiniRisc

section Renamed
variable (r : Renaming)

def Instruction.renamed (i : Instruction) : Instruction := { i with label := i.label.map r.rename }

def LabelTable.renamed (labels : LabelTable) : LabelTable := labels.map (Prod.map r.rename id)

def Program.renamed (p : Program) : Program :=
  ⟨p.instructions.map (Instruction.renamed r), p.labels.renamed r⟩

/-- A renamed label is where the label was, for no two labels become the same. -/
theorem LabelTable.lookup_renamed (labels : LabelTable) (name : String) :
    (labels.renamed r).lookup (r.rename name) = labels.lookup name := by
  induction labels with
  | nil => rfl
  | cons e rest ih =>
    obtain ⟨other, index⟩ := e
    have hname : (r.rename name == r.rename other) = (name == other) :=
      beq_eq_beq.2 r.rename_injective.eq_iff
    rw [renamed, List.map_cons, ← renamed, Prod.map, List.lookup_cons, List.lookup_cons, hname, ih]
    rfl

end Renamed

namespace Assembly
variable (r : Renaming) (lines : List String)

private theorem bindLabels_renamed (labels : LabelTable) (index : Nat) (ss : List Statement) :
    bindLabels (labels.renamed r) index (ss.map (Statement.renamed r lines)) =
      Prod.map (LabelTable.renamed r) (Option.map (Diagnostic.renamed r lines))
        (bindLabels labels index ss) := by
  induction ss generalizing labels index with
  | nil => rfl
  | cons s rest ih =>
    have hbody : (s.renamed r lines).body.isSome = s.body.isSome := Option.isSome_map
    simp only [List.map_cons, bindLabels, hbody]
    cases hl : s.label with
    | none =>
      rw [show (s.renamed r lines).label = none from congrArg (Option.map r.rename) hl]
      exact ih ..
    | some name =>
      rw [show (s.renamed r lines).label = some (r.rename name) from
        congrArg (Option.map r.rename) hl]
      dsimp only
      rw [LabelTable.lookup_renamed]
      split
      · rfl
      · rw [← ih, LabelTable.renamed, LabelTable.renamed, List.map_append]
        rfl

private theorem resolveOperands_renamed (labels : LabelTable) (op : Opcode) (modifier : Modifier)
    (line : Int) {shape : Shape} (operands : Operands shape) :
    resolveOperands (labels.renamed r) op modifier line (operands.renamed r) =
      ((resolveOperands labels op modifier line operands).map (Instruction.renamed r)).mapError
        r.rename := by
  cases operands with
  | branch name =>
    rw [Operands.renamed, resolveOperands, resolveOperands, LabelTable.lookup_renamed]
    cases labels.lookup name <;> rfl
  | _ => rfl

private theorem resolve_renamed (labels : LabelTable) (ss : List Statement) :
    resolve (labels.renamed r) (ss.map (Statement.renamed r lines)) =
      ((resolve labels ss).map (List.map (Instruction.renamed r))).mapError
        (Diagnostic.renamed r lines) := by
  induction ss with
  | nil => rfl
  | cons s rest ih =>
    rw [List.map_cons, resolve, resolve]
    cases hb : s.body with
    | none =>
      rw [show (s.renamed r lines).body = none from congrArg (Option.map _) hb]
      exact ih
    | some b =>
      rw [show (s.renamed r lines).body = some (b.renamed r) from congrArg (Option.map _) hb]
      have hi := resolveOperands_renamed r labels b.op b.modifier s.line b.operands
      dsimp only [Statement.Body.renamed, Statement.renamed]
      rw [hi, ih]
      cases resolveOperands labels b.op b.modifier s.line b.operands with
      | error name => rfl
      | ok i => cases resolve labels rest <;> rfl

theorem program_renamed (ss : List Statement) : program (ss.map (Statement.renamed r lines)) =
    ((program ss).map (Program.renamed r)).mapError (Diagnostic.renamed r lines) := by
  have hbind : bindLabels [] 0 (ss.map (Statement.renamed r lines)) =
      Prod.map (LabelTable.renamed r) (Option.map (Diagnostic.renamed r lines))
        (bindLabels [] 0 ss) := bindLabels_renamed r lines [] 0 ss
  rw [program, program, hbind]
  rcases bindLabels [] 0 ss with ⟨labels, _ | d⟩
  · dsimp only [Prod.map, Option.map]
    rw [resolve_renamed]
    cases resolve labels ss with
    | error d => rfl
    | ok is => simp [Except.map, Except.mapError, Program.renamed]
  · rfl

end Assembly
end MiniRisc
