import MiniRisc.Proofs.Assembly.Layout
/-! Programs written out as source texts. The text of an assembled program is assembled to the same
instructions and labels again, and so the program is written out in the same way. -/
namespace MiniRisc

def Instruction.unlined (i : Instruction) : Instruction := { i with line := 0 }

private theorem Instruction.render_unlined (i : Instruction) : i.unlined.render = i.render := rfl

namespace Program

def labelLines (labels : LabelTable) (index : Nat) : List String :=
  (labels.filter (·.2 = index)).map fun e => e.1 ++ ":"

/-- The lines of instructions from an index on, each below the lines of its labels. The labels
behind the last instruction come last. -/
def linesFrom (labels : LabelTable) (index : Nat) : List Instruction → Except Defect (List String)
  | [] => .ok (labelLines labels index)
  | i :: rest => do
    let text ← i.render
    return labelLines labels index ++ text :: (← linesFrom labels (index + 1) rest)

/-- The source text of a program: its lines, each with a line feed behind it. -/
def render (p : Program) : Except Defect String := do
  return String.join ((← linesFrom p.labels 0 p.instructions.toList).map (· ++ "\n"))

/-- Lines do not depend on where instructions come from. -/
theorem linesFrom_congr (labels : LabelTable) {is is' : List Instruction}
    (h : is.map Instruction.unlined = is'.map Instruction.unlined) (index : Nat) :
    linesFrom labels index is = linesFrom labels index is' := by
  induction is generalizing is' index with
  | nil =>
    obtain rfl := List.map_eq_nil_iff.1 h.symm
    rfl
  | cons i is ih =>
    cases is' with
    | nil => cases h
    | cons i' is' =>
      obtain ⟨hi, his⟩ := List.cons.inj h
      have hrender : i.render = i'.render := by
        rw [← i.render_unlined, hi, i'.render_unlined]
      rw [linesFrom, linesFrom, hrender, ih his]

end Program

namespace Assembly
open Statement

section Printed
variable {labels : LabelTable} {is : List Instruction} {es : List (String × Body)}
  {ss : List Statement} {p : Program}

private theorem linesFrom_of_printed (h : List.Forall₂ (fun i e => Printed labels i e.1 e.2) is es)
    (index : Nat) :
    Program.linesFrom labels index is = .ok ((layoutFrom labels index es).map Prod.fst) := by
  have hlabels (index : Nat) : Program.labelLines labels index =
      (labelLayout labels index).map Prod.fst := by
    simp [Program.labelLines, labelLayout, Function.comp_def]
  induction h generalizing index with
  | nil => rw [Program.linesFrom, layoutFrom, hlabels]
  | @cons i e is es head tail ih =>
    rw [Program.linesFrom, head.render, ih, hlabels, layoutFrom, List.map_append, List.map_cons]
    rfl

private theorem reads_of_printed (h : List.Forall₂ (fun i e => Printed labels i e.1 e.2) is es) :
    ∀ e ∈ es, LineReads e.1 (none, some e.2) := by
  induction h with
  | nil => simp
  | cons head tail ih =>
    intro e he
    rcases List.mem_cons.1 he with rfl | he
    · exact head.reads
    · exact ih e he

/-- Statements with the bodies of printed instructions are resolved to them, on their own lines. -/
theorem resolutions_of_printed (h : List.Forall₂ (fun i e => Printed labels i e.1 e.2) is es)
    (hs : ss.filterMap (·.body) = es.map Prod.snd) :
    ∃ is' : List Instruction, ss.filterMap (·.resolution? labels) = is'.map .ok ∧
      is'.map Instruction.unlined = is.map Instruction.unlined := by
  -- The induction is on the statements: only one with a body takes the next instruction.
  induction ss generalizing is es with
  | nil =>
    obtain rfl := List.map_eq_nil_iff.1 hs.symm
    cases h
    exact ⟨[], rfl, rfl⟩
  | cons s ss ih =>
    cases hb : s.body with
    | none =>
      rw [List.filterMap_cons_none hb] at hs
      obtain ⟨is', hr, hi⟩ := ih h hs
      refine ⟨is', ?_, hi⟩
      rw [List.filterMap_cons_none (by rw [Statement.resolution?, hb]; rfl), hr]
    | some b =>
      rw [List.filterMap_cons_some hb] at hs
      cases h with
      | nil => cases hs
      | @cons i e is es head tail =>
        obtain ⟨rfl, hrest⟩ := List.cons.inj hs
        obtain ⟨is', hr, hi⟩ := ih tail hrest
        have hresolved : s.resolution? labels = some (.ok { i with line := s.line }) := by
          rw [Statement.resolution?, hb]
          exact congrArg some (head.resolves s.line)
        refine ⟨{ i with line := s.line } :: is', ?_, ?_⟩
        · rw [List.filterMap_cons_some hresolved, hr]
          rfl
        · rw [List.map_cons, List.map_cons, hi]
          rfl

/-- Every instruction of a program is resolved from a body. -/
theorem exists_body (h : program ss = .ok p) : ∀ i ∈ p.instructions.toList, ∃ s ∈ ss, ∃ b,
    s.body = some b ∧
      resolveOperands p.labels b.op b.modifier s.line b.operands = .ok i := by
  intro i hi
  obtain ⟨-, -, hresolutions⟩ := program_eq_ok_iff.1 h
  have hmem : Except.ok i ∈ ss.filterMap (·.resolution? p.labels) :=
    hresolutions ▸ List.mem_map_of_mem hi
  obtain ⟨s, hs, hr⟩ := List.mem_filterMap.1 hmem
  obtain ⟨b, hb, hok⟩ := Option.map_eq_some_iff.1 hr
  exact ⟨s, hs, b, hb, hok⟩

/-- The instructions of a program of written statements are printed. -/
theorem forall_printed (h : program ss = .ok p) (legal : ∀ s ∈ ss, s.Legal)
    (hw : ∀ s ∈ ss, ∀ name, s.label = some name → IsWord name ∧ ¬ Grammar.Reserved name) :
    ∃ es : List (String × Body),
      List.Forall₂ (fun i e => Printed p.labels i e.1 e.2) p.instructions.toList es := by
  obtain ⟨hr, -, -⟩ := program_eq_ok_iff.1 h
  have hprinted : ∀ i ∈ p.instructions.toList, ∃ e : String × Body,
      Printed p.labels i e.1 e.2 := by
    intro i hi
    obtain ⟨s, hs, b, hb, hok⟩ := exists_body h i hi
    have hname : ∀ name, b.operands.reference? = some name →
        IsWord name ∧ ¬ Grammar.Reserved name := by
      intro name hn
      have href : s.reference? = some name := by
        rw [Statement.reference?, hb]
        exact hn
      obtain ⟨t, ht, hlabel⟩ := List.mem_filterMap.1
        (hr.defined name (List.mem_filterMap.2 ⟨s, hs, href⟩))
      exact hw t ht name hlabel
    obtain ⟨text, b', hprinted⟩ := exists_printed (legal s hs b hb) hname hok
    exact ⟨(text, b'), hprinted⟩
  revert hprinted
  generalize p.instructions.toList = is
  intro hprinted
  induction is with
  | nil => exact ⟨[], .nil⟩
  | cons i is ih =>
    obtain ⟨e, he⟩ := hprinted i List.mem_cons_self
    obtain ⟨es, hes⟩ := ih fun j hj => hprinted j (List.mem_cons_of_mem i hj)
    exact ⟨e :: es, .cons he hes⟩

/-- The references of statements are the labels of their instructions. -/
theorem references_of_resolutions
    (h : ss.filterMap (·.resolution? labels) = is.map .ok) :
    references ss = is.filterMap (·.label) := by
  have hreference : ∀ s ∈ ss, s.reference? =
      (s.resolution? labels).bind fun r => r.toOption.bind (·.label) := by
    intro s hs
    cases hb : s.body with
    | none => simp [Statement.reference?, Statement.resolution?, hb]
    | some b =>
      have hresolution : s.resolution? labels =
          some (resolveOperands labels b.op b.modifier s.line b.operands) := by
        rw [Statement.resolution?, hb]
        rfl
      have hmem := h ▸ List.mem_filterMap.2 ⟨s, hs, hresolution⟩
      obtain ⟨i, -, hi⟩ := List.mem_map.1 hmem
      rw [hresolution, ← hi, Statement.reference?, hb]
      exact (label_of_resolved hi.symm).symm
  calc references ss
    _ = ss.filterMap fun s =>
        (s.resolution? labels).bind fun r => r.toOption.bind (·.label) :=
      List.filterMap_congr hreference
    _ = (is.map Except.ok).filterMap fun r : Except String Instruction =>
        r.toOption.bind (·.label) := by
      rw [← h, List.filterMap_filterMap]
    _ = is.filterMap (·.label) := List.filterMap_map ..

/-- The lines that a program is laid out in are a program of the same labels and instructions. -/
theorem program_of_layout (h : program ss = .ok p)
    (printed : List.Forall₂ (fun i e => Printed p.labels i e.1 e.2) p.instructions.toList es)
    {ss' : List Statement} (hs : ss'.map content = (layoutFrom p.labels 0 es).map Prod.snd) :
    ∃ r, program ss' = .ok r ∧ r.labels = p.labels ∧
      r.instructions.map Instruction.unlined = p.instructions.map Instruction.unlined := by
  obtain ⟨hr, hlabels, hi⟩ := program_eq_ok_iff.1 h
  have hsize : bodyCount ss = es.length := by
    rw [bodyCount_eq_length p.labels, hi, List.length_map, printed.length_eq]
  have hbound : ∀ e ∈ p.labels, e.2 ≤ 0 + es.length := by
    intro e he
    rw [hlabels] at he
    obtain ⟨front, s, back, rfl, -, hk⟩ := mem_labelsFrom_iff.1 (show (e.1, e.2) ∈ _ from he)
    rw [hk, ← hsize, bodyCount, bodyCount, List.countP_append]
    omega
  have htable : labelsFrom 0 ss' = p.labels := by
    rw [labelsFrom_layout (hlabels ▸ labelsFrom_sorted 0 ss) hbound hs]
    simp
  -- With the same table the statements define the same labels, and the instructions name those
  -- that are referred to.
  have hnames : definedLabels ss' = definedLabels ss := by
    rw [← names_labelsFrom 0, htable, hlabels, names_labelsFrom]
  obtain ⟨is', hi', hunlined⟩ := resolutions_of_printed printed (bodies_layout hs)
  have hreferences : references ss' = references ss := by
    rw [references_of_resolutions hi', references_of_resolutions hi]
    have hlabel := congrArg (List.filterMap fun i : Instruction => i.label) hunlined
    rwa [List.filterMap_map, List.filterMap_map] at hlabel
  refine ⟨⟨is'.toArray, p.labels⟩, program_eq_ok_iff.2 ⟨⟨?_, ?_⟩, htable.symm, hi'⟩, rfl, ?_⟩
  · rw [hnames]
    exact hr.distinct
  · rw [hnames, hreferences]
    exact hr.defined
  · rw [← Array.toList_inj, Array.toList_map, Array.toList_map]
    exact hunlined

end Printed
end Assembly

namespace Program
variable {p r : Program}

private theorem render_congr (hl : r.labels = p.labels)
    (hi : r.instructions.map Instruction.unlined = p.instructions.map Instruction.unlined) :
    r.render = p.render := by
  have hlist := congrArg Array.toList hi
  rw [Array.toList_map, Array.toList_map] at hlist
  rw [render, render, hl, linesFrom_congr p.labels hlist]

theorem sameOperations_of_unlined
    (h : r.instructions.map Instruction.unlined = p.instructions.map Instruction.unlined) :
    r.sameOperations p = true := by
  have hlist := congrArg (fun is => is.toList.map (·.toOperation)) h
  simp only [Array.toList_map, List.map_map] at hlist
  rw [sameOperations, beq_iff_eq]
  exact hlist

/-- The program of a source text is written out as a text. That is the source text of a program
with the same operations, which only stand on other lines, and the same labels in the same order,
and it is written out as the same text again. -/
theorem render_reassembles {source : String} (h : ofSource source = .ok p) :
    ∃ text r, p.render = .ok text ∧ ofSource text = .ok r ∧ r.sameOperations p = true ∧
      r.instructions.map Instruction.unlined = p.instructions.map Instruction.unlined ∧
      r.labels = p.labels ∧ r.render = .ok text := by
  obtain ⟨ss, hss, hp⟩ := Outcome.bind_eq_ok_iff.1 h
  have hword := (Statement.ofSource_ok_iff.1 hss).label
  obtain ⟨es, hprinted⟩ := Assembly.forall_printed hp (Statement.ofSource_legal hss) hword
  have hlabels : ∀ e ∈ p.labels, IsWord e.1 ∧ ¬ Grammar.Reserved e.1 := by
    intro e he
    rw [(Assembly.program_eq_ok_iff.1 hp).2.1] at he
    obtain ⟨front, s, back, rfl, hl, -⟩ :=
      Assembly.mem_labelsFrom_iff.1 (show (e.1, e.2) ∈ _ from he)
    exact hword s (by simp) e.1 hl
  obtain ⟨ss', hss', hcontent⟩ := Statement.ofSource_of_lines
    (Assembly.lineReads_layout hlabels (Assembly.reads_of_printed hprinted) 0)
  obtain ⟨r, hr, hl, hi⟩ := Assembly.program_of_layout hp hprinted hcontent
  have hrender : p.render =
      .ok (String.join ((Assembly.layoutFrom p.labels 0 es).map fun l => l.1 ++ "\n")) := by
    rw [render, Assembly.linesFrom_of_printed hprinted]
    exact congrArg (fun lines => Except.ok (String.join lines)) (List.map_map ..)
  exact ⟨_, r, hrender, Outcome.bind_eq_ok_iff.2 ⟨ss', hss', hr⟩, sameOperations_of_unlined hi, hi,
    hl, (render_congr hl hi).trans hrender⟩

theorem render_reassembles_countdown :
    ofSource "loop: sub r1, r1, 1\ncmp r1, 0\nbgt loop" = .ok countdown ∧
      ∃ r, countdown.render = .ok "loop:\nsub r1, r1, 1\ncmp r1, 0\nbgt loop\n" ∧
        ofSource "loop:\nsub r1, r1, 1\ncmp r1, 0\nbgt loop\n" = .ok r ∧
        r.sameOperations countdown = true := by
  obtain ⟨text, r, ht, hr, hsame, -⟩ := render_reassembles ofSource_countdown
  have htext : countdown.render = .ok "loop:\nsub r1, r1, 1\ncmp r1, 0\nbgt loop\n" := by cbv
  obtain rfl := Except.ok.inj (ht.symm.trans htext)
  exact ⟨ofSource_countdown, r, ht, hr, hsame⟩

end Program
end MiniRisc
