import MiniRisc.Proofs.Assembly.Resolution
import MiniRisc.Proofs.Statement.Append
/-! Programs of statements behind others. Labels and the targets of branches move on with the
instructions, and nothing else of an instruction depends on where it is. -/
namespace MiniRisc

/-- The operation behind a number of others: only a branch holds a position. -/
def Operation.displaced (n : Nat) (o : Operation) : Operation :=
  { o with imm := if o.op.shape = .branch then o.imm.map (· + (n : Int)) else o.imm }

def Instruction.displaced (n k : Nat) (i : Instruction) : Instruction :=
  { i with toOperation := i.toOperation.displaced n, line := i.line + k }

def LabelTable.displaced (n : Nat) (labels : LabelTable) : LabelTable :=
  labels.map fun e => (e.1, e.2 + n)

private theorem Operation.displaced_of_shape {n : Nat} {o : Operation} (h : o.op.shape ≠ .branch) :
    o.displaced n = o := by
  rw [displaced, if_neg h]

private theorem Instruction.displaced_zero : Instruction.displaced 0 0 = id := by
  funext i
  have hop : i.toOperation.displaced 0 = i.toOperation := by
    simp [Operation.displaced]
  rw [displaced, hop]
  simp

namespace LabelTable
variable {n : Nat} {labels : LabelTable}

private theorem lookup_displaced (n : Nat) (labels : LabelTable) (name : String) :
    (labels.displaced n).lookup name = (labels.lookup name).map (· + n) := by
  induction labels with
  | nil => rfl
  | cons e rest ih =>
    obtain ⟨other, index⟩ := e
    rw [displaced, List.map_cons, List.lookup_cons, List.lookup_cons, ← displaced, ih]
    cases name == other <;> rfl

end LabelTable

namespace Assembly
open Statement
variable {lines : List String} {k n : Nat}

section Labels

private theorem definedLabels_moved (lines : List String) (k : Nat) (ss : List Statement) :
    definedLabels (ss.map (moved lines k)) = definedLabels ss := by
  rw [definedLabels, List.filterMap_map]
  rfl

private theorem references_moved (lines : List String) (k : Nat) (ss : List Statement) :
    references (ss.map (moved lines k)) = references ss := by
  rw [references, List.filterMap_map]
  rfl

private theorem references_append (front back : List Statement) :
    references (front ++ back) = references front ++ references back :=
  List.filterMap_append ..

private theorem labelsFrom_moved (lines : List String) (k index : Nat) (ss : List Statement) :
    labelsFrom index (ss.map (moved lines k)) = labelsFrom index ss := by
  induction ss generalizing index with
  | nil => rfl
  | cons s rest ih =>
    rw [List.map_cons, labelsFrom, labelsFrom, ih]
    rfl

private theorem labelsFrom_append (index : Nat) (front back : List Statement) :
    labelsFrom index (front ++ back) =
      labelsFrom index front ++ labelsFrom (index + bodyCount front) back := by
  induction front generalizing index with
  | nil => rfl
  | cons s front ih =>
    rw [List.cons_append, labelsFrom, labelsFrom, ih, List.append_assoc, bodyCount_cons]

private theorem labelsFrom_displaced (n index : Nat) (ss : List Statement) :
    labelsFrom (index + n) ss = (labelsFrom index ss).displaced n := by
  induction ss generalizing index with
  | nil => rfl
  | cons s rest ih =>
    have hnext : (if s.body.isSome then index + n + 1 else index + n) =
        (if s.body.isSome then index + 1 else index) + n := by
      split <;> omega
    rw [labelsFrom, labelsFrom, hnext, ih, LabelTable.displaced, LabelTable.displaced,
      List.map_append]
    refine congrArg (· ++ _) ?_
    unfold entry
    cases s.label <;> rfl

end Labels

section Resolution
variable {labels labels' : LabelTable}

private theorem withSource_displaced {o : Operation} (h : o.op.shape ≠ .branch)
    (modifier : Modifier) (source : Source) :
    (withSource o modifier source).displaced n = withSource o modifier source := by
  apply Operation.displaced_of_shape
  cases source <;> exact h

/-- Operands are resolved to the same instruction, displaced as the label is that they refer to. -/
theorem resolveOperands_displaced {op : Opcode} {shape : Shape} (hs : op.shape = shape)
    (modifier : Modifier) (line : Int) (operands : Operands shape)
    (h : ∀ name, operands.reference? = some name →
      labels'.lookup name = (labels.lookup name).map (· + n)) :
    resolveOperands labels' op modifier (line + k) operands =
      (resolveOperands labels op modifier line operands).map (Instruction.displaced n k) := by
  cases operands with
  | three target left right =>
    have hop : op.shape ≠ .branch := by simp [hs]
    simp only [resolveOperands, Except.map, Instruction.displaced]
    rw [withSource_displaced hop]
  | two register source =>
    have hop : op.shape ≠ .branch := by simp [hs]
    simp only [resolveOperands, Except.map, Instruction.displaced]
    rw [withSource_displaced (by split <;> exact hop)]
  | address register displacement base =>
    have hop : op.shape ≠ .branch := by simp [hs]
    simp only [resolveOperands, Except.map, Instruction.displaced]
    rw [Operation.displaced_of_shape hop]
  | branch name =>
    rw [resolveOperands, resolveOperands, h name rfl]
    cases labels.lookup name with
    | none => rfl
    | some index =>
      simp [Except.map, Instruction.displaced, Operation.displaced, hs]
  | bare =>
    have hop : op.shape ≠ .branch := by simp [hs]
    simp only [resolveOperands, Except.map, Instruction.displaced]
    rw [Operation.displaced_of_shape hop]

private theorem resolution?_moved {s : Statement} (h : ∀ name, s.reference? = some name →
      labels'.lookup name = (labels.lookup name).map (· + n)) :
    (moved lines k s).resolution? labels' =
      (s.resolution? labels).map (Except.map (Instruction.displaced n k)) := by
  unfold Statement.resolution? moved
  cases hb : s.body with
  | none => rfl
  | some b =>
    refine congrArg some (resolveOperands_displaced rfl _ _ _ fun name hn => h name ?_)
    rw [Statement.reference?, hb]
    exact hn

private theorem resolutions_moved {ss : List Statement} {is : List Instruction}
    (h : ∀ name ∈ references ss, labels'.lookup name = (labels.lookup name).map (· + n))
    (hi : ss.filterMap (·.resolution? labels) = is.map .ok) :
    (ss.map (moved lines k)).filterMap (·.resolution? labels') =
      (is.map (Instruction.displaced n k)).map .ok := by
  have hmoved : ∀ s ∈ ss, (moved lines k s).resolution? labels' =
      (s.resolution? labels).map (Except.map (Instruction.displaced n k)) := fun s hs =>
    resolution?_moved fun name hr => h name (List.mem_filterMap.2 ⟨s, hs, hr⟩)
  calc (ss.map (moved lines k)).filterMap (·.resolution? labels')
    _ = ss.filterMap fun s => (moved lines k s).resolution? labels' := List.filterMap_map ..
    _ = ss.filterMap fun s =>
        (s.resolution? labels).map (Except.map (Instruction.displaced n k)) :=
      List.filterMap_congr hmoved
    _ = (ss.filterMap (·.resolution? labels)).map (Except.map (Instruction.displaced n k)) :=
      (List.map_filterMap ..).symm
    _ = (is.map (Instruction.displaced n k)).map .ok := by
      rw [hi, List.map_map, List.map_map]
      rfl

end Resolution

theorem program_eq_ok_iff {ss : List Statement} {p : Program} : program ss = .ok p ↔
    Resolvable ss ∧ p.labels = labelsFrom 0 ss ∧
      ss.filterMap (·.resolution? p.labels) = p.instructions.toList.map .ok := by
  rcases program_cases ss with ⟨hr, q, hq, hlabels, hi⟩ | ⟨d, hd, hf⟩
  · rw [hq, Except.ok.injEq]
    constructor
    · rintro rfl
      exact ⟨hr, hlabels, hi⟩
    · rintro ⟨-, hlabels', hi'⟩
      obtain ⟨is, labels⟩ := q
      obtain ⟨is', labels'⟩ := p
      obtain rfl : labels = labels' := hlabels.trans hlabels'.symm
      have hmap : is.toList.map Except.ok = is'.toList.map (Except.ok (ε := String)) :=
        hi.symm.trans hi'
      have hinj : Function.Injective (Except.ok : Instruction → Except String Instruction) :=
        fun _ _ he => Except.ok.inj he
      rw [Array.toList_inj.1 (hinj.list_map hmap)]
  · rw [hd]
    exact ⟨(nomatch ·), fun h => absurd h.1 hf.not_resolvable⟩

/-- The program of statements, and below them those of another text: its instructions and labels
come behind those of the first. -/
theorem program_append {front back : List Statement} {p q : Program}
    (hp : program front = .ok p) (hq : program back = .ok q)
    (hd : ∀ name ∈ p.labels.map Prod.fst, name ∉ q.labels.map Prod.fst)
    (lines : List String) (k : Nat) :
    program (front.map (moved lines 0) ++ back.map (moved lines k)) = .ok
      ⟨p.instructions ++ q.instructions.map (Instruction.displaced p.size k),
        p.labels ++ q.labels.displaced p.size⟩ := by
  obtain ⟨hpr, hpl, hpi⟩ := program_eq_ok_iff.1 hp
  obtain ⟨hqr, hql, hqi⟩ := program_eq_ok_iff.1 hq
  have hpn : p.labels.map Prod.fst = definedLabels front := by rw [hpl, names_labelsFrom]
  have hqn : q.labels.map Prod.fst = definedLabels back := by rw [hql, names_labelsFrom]
  have hsize : bodyCount front = p.size := by
    rw [bodyCount_eq_length p.labels, hpi, List.length_map]
    rfl
  rw [hpn, hqn] at hd
  refine program_eq_ok_iff.2 ⟨⟨?_, ?_⟩, ?_, ?_⟩
  · rw [definedLabels_append, definedLabels_moved, definedLabels_moved]
    exact List.nodup_append.2 ⟨hpr.distinct, hqr.distinct, fun a ha b hb e => hd a ha (e ▸ hb)⟩
  · intro name hname
    rw [references_append, references_moved, references_moved, List.mem_append] at hname
    rw [definedLabels_append, definedLabels_moved, definedLabels_moved, List.mem_append]
    exact hname.imp (hpr.defined name) (hqr.defined name)
  · have hcount : bodyCount (front.map (moved lines 0)) = bodyCount front := by
      rw [bodyCount, List.countP_map]
      rfl
    rw [labelsFrom_append, labelsFrom_moved, labelsFrom_moved, hcount, hsize, labelsFrom_displaced,
      ← hpl, ← hql]
  · rw [List.filterMap_append, Array.toList_append, List.map_append, Array.toList_map]
    refine congrArg₂ _ ?_ ?_
    · have hlookup : ∀ name ∈ references front,
          (p.labels ++ q.labels.displaced p.size).lookup name =
            (p.labels.lookup name).map (· + 0) := by
        intro name hname
        have hknown := lookup_isSome_iff.2 (hpn ▸ hpr.defined name hname)
        obtain ⟨index, hl⟩ := Option.isSome_iff_exists.1 hknown
        rw [List.lookup_append, hl]
        rfl
      refine (resolutions_moved hlookup hpi).trans ?_
      rw [Instruction.displaced_zero, List.map_id]
    · refine resolutions_moved ?_ hqi
      intro name hname
      have hnone : p.labels.lookup name = none := by
        rw [← Option.not_isSome_iff_eq_none, lookup_isSome_iff, hpn]
        exact fun hm => hd name hm (hqr.defined name hname)
      rw [List.lookup_append, hnone, LabelTable.lookup_displaced]
      rfl

end Assembly
end MiniRisc
