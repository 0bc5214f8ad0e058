import MiniRisc.Assembly.Session
import MiniRisc.Proofs.Assembly.Labels
import MiniRisc.Proofs.Machine.Branch
/-! Resolution of statements: which lists of statements are programs, what the program of each is,
and which diagnostic there is instead. -/
namespace MiniRisc

/-- The instruction that a statement becomes, or the label that it misses; nothing if it has no
body. -/
def Statement.resolution? (labels : LabelTable) (s : Statement) :
    Option (Except String Instruction) :=
  s.body.map fun b => Assembly.resolveOperands labels b.op b.modifier s.line b.operands

namespace Assembly

/-- A statement behind others is the first that refers to a label that is not known. -/
structure Dangles (known : List String) (front : List Statement) (s : Statement) (name : String) :
    Prop where
  reference : s.reference? = some name
  defined : ∀ other ∈ references front, other ∈ known
  missing : name ∉ known

section Operands
variable {labels : LabelTable} {op : Opcode} {modifier : Modifier} {line : Int} {shape : Shape}
  {operands : Operands shape}

theorem resolveOperands_of_reference {name : String} (h : operands.reference? = some name) :
    resolveOperands labels op modifier line operands =
      match labels.lookup name with
      | none => .error name
      | some index => .ok { op, imm := some (index : Int), line, label := some name } := by
  cases operands <;> cases h
  rfl

private theorem resolveOperands_of_bare (h : operands.reference? = none) :
    ∃ i, resolveOperands labels op modifier line operands = .ok i := by
  cases operands with
  | branch name => cases h
  | _ => exact ⟨_, rfl⟩

variable (labels op modifier line operands) in
/-- Operands are resolved unless they refer to a label that is not known. -/
theorem resolveOperands_cases :
    ((∀ name, operands.reference? = some name → name ∈ labels.map Prod.fst) ∧
      ∃ i, resolveOperands labels op modifier line operands = .ok i) ∨
    ∃ name, operands.reference? = some name ∧ name ∉ labels.map Prod.fst ∧
      resolveOperands labels op modifier line operands = .error name := by
  cases hr : operands.reference? with
  | none => exact .inl ⟨by simp, resolveOperands_of_bare hr⟩
  | some name =>
    rw [resolveOperands_of_reference hr]
    cases hl : labels.lookup name with
    | none => exact .inr ⟨name, rfl, fun hm => by simpa [hl] using lookup_isSome_iff.2 hm, rfl⟩
    | some index =>
      refine .inl ⟨?_, _, rfl⟩
      rintro _ ⟨⟩
      exact lookup_isSome_iff.1 (by simp [hl])

end Operands

private theorem references_cons_known {known : List String} {s : Statement} {rest : List Statement}
    (hs : ∀ name, s.reference? = some name → name ∈ known)
    (hr : ∀ name ∈ references rest, name ∈ known) :
    ∀ name ∈ references (s :: rest), name ∈ known := by
  intro name hm
  rw [references_cons] at hm
  rcases List.mem_append.1 hm with hm | hm
  · exact hs name (Option.mem_toList.1 hm)
  · exact hr name hm

theorem Dangles.cons {known : List String} {s t : Statement} {front : List Statement}
    {name : String} (hs : ∀ name, s.reference? = some name → name ∈ known)
    (h : Dangles known front t name) : Dangles known (s :: front) t name :=
  ⟨h.reference, references_cons_known hs h.defined, h.missing⟩

/-- Statements are resolved one by one, up to the first that refers to a label that is not
known. -/
theorem resolve_cases (labels : LabelTable) (ss : List Statement) :
    ((∀ name ∈ references ss, name ∈ labels.map Prod.fst) ∧ ∃ is,
      resolve labels ss = .ok is ∧ ss.filterMap (·.resolution? labels) = is.map .ok) ∨
    ∃ front s back name, ss = front ++ s :: back ∧ Dangles (labels.map Prod.fst) front s name ∧
      resolve labels ss = .error ⟨.undefinedLabel name, s.line, s.text⟩ := by
  induction ss with
  | nil => exact .inl ⟨by simp [references], [], rfl, rfl⟩
  | cons s rest ih =>
    cases hb : s.body with
    | none =>
      have hs : ∀ name, s.reference? = some name → name ∈ labels.map Prod.fst := by
        simp [Statement.reference?, hb]
      simp only [resolve, hb]
      rcases ih with ⟨hd, is, hr, hi⟩ | ⟨front, t, back, name, rfl, hd, hr⟩
      · exact .inl ⟨references_cons_known hs hd, is, hr,
          by simpa [Statement.resolution?, hb] using hi⟩
      · exact .inr ⟨s :: front, t, back, name, rfl, hd.cons hs, hr⟩
    | some b =>
      have href : s.reference? = b.operands.reference? := by simp [Statement.reference?, hb]
      simp only [resolve, hb]
      rcases resolveOperands_cases labels b.op b.modifier s.line b.operands with
        ⟨hs, i, hi⟩ | ⟨name, hs, hm, hi⟩
      · rw [← href] at hs
        simp only [hi]
        rcases ih with ⟨hd, is, hr, hmap⟩ | ⟨front, t, back, name, rfl, hd, hr⟩
        · refine .inl ⟨references_cons_known hs hd, i :: is, by simp [hr, Except.map], ?_⟩
          simpa [Statement.resolution?, hb, hi] using hmap
        · exact .inr ⟨s :: front, t, back, name, rfl, hd.cons hs, by simp [hr, Except.map]⟩
      · exact .inr ⟨[], s, rest, name, rfl, ⟨href ▸ hs, by simp [references], hm⟩, by simp [hi]⟩

/-- Two places in a list are the same, or one comes before the other. -/
theorem places_cases {α : Type} {front front' back back' : List α} {a a' : α}
    (h : front ++ a :: back = front' ++ a' :: back') :
    (front = front' ∧ a = a') ∨ (∃ mid, front' = front ++ a :: mid) ∨
      ∃ mid, front = front' ++ a' :: mid := by
  rcases List.append_eq_append_iff.1 h with ⟨mid, rfl, hm⟩ | ⟨mid, rfl, hm⟩
  · cases mid with
    | nil => exact .inl ⟨(List.append_nil front).symm, (List.cons.inj hm).1⟩
    | cons b mid =>
      obtain ⟨rfl, -⟩ := List.cons.inj hm
      exact .inr (.inl ⟨mid, rfl⟩)
  · cases mid with
    | nil => exact .inl ⟨List.append_nil front', (List.cons.inj hm).1.symm⟩
    | cons b mid =>
      obtain ⟨rfl, -⟩ := List.cons.inj hm
      exact .inr (.inr ⟨mid, rfl⟩)

section Unique
variable {known : List String} {front front' back back' : List Statement} {s s' : Statement}
  {name name' : String}

theorem Repeats.unique (h : Repeats known front s name) (h' : Repeats known front' s' name')
    (hs : front ++ s :: back = front' ++ s' :: back') : s = s' ∧ name = name' := by
  rcases places_cases hs with ⟨rfl, rfl⟩ | ⟨mid, rfl⟩ | ⟨mid, rfl⟩
  · exact ⟨rfl, Option.some.inj (h.label.symm.trans h'.label)⟩
  · exact absurd h'.distinct (h.not_nodup mid)
  · exact absurd h.distinct (h'.not_nodup mid)

private theorem Dangles.not_known (h : Dangles known front s name) (back : List Statement) :
    ¬ ∀ other ∈ references (front ++ s :: back), other ∈ known := by
  intro hk
  exact h.missing (hk name (List.mem_filterMap.2 ⟨s, by simp, h.reference⟩))

theorem Dangles.unique (h : Dangles known front s name) (h' : Dangles known front' s' name')
    (hs : front ++ s :: back = front' ++ s' :: back') : s = s' ∧ name = name' := by
  rcases places_cases hs with ⟨rfl, rfl⟩ | ⟨mid, rfl⟩ | ⟨mid, rfl⟩
  · exact ⟨rfl, Option.some.inj (h.reference.symm.trans h'.reference)⟩
  · exact absurd h'.defined (h.not_known mid)
  · exact absurd h.defined (h'.not_known mid)

end Unique

/-- Why statements are no program: a label that is defined again, or else a reference to a label
that is not defined. -/
inductive Fails (ss : List Statement) : Diagnostic → Prop
  | duplicate {front : List Statement} {s : Statement} {back : List Statement} {name : String}
      (split : ss = front ++ s :: back) (repeats : Repeats [] front s name) :
      Fails ss ⟨.duplicateLabel name, s.line, s.text⟩
  | undefined {front : List Statement} {s : Statement} {back : List Statement} {name : String}
      (distinct : (definedLabels ss).Nodup) (split : ss = front ++ s :: back)
      (dangles : Dangles (definedLabels ss) front s name) :
      Fails ss ⟨.undefinedLabel name, s.line, s.text⟩

theorem Fails.unique {ss : List Statement} {d d' : Diagnostic} (h : Fails ss d)
    (h' : Fails ss d') : d = d' := by
  cases h with
  | duplicate hs hr =>
    cases h' with
    | duplicate hs' hr' =>
      obtain ⟨rfl, rfl⟩ := hr.unique hr' (hs.symm.trans hs')
      rfl
    | undefined hn => exact absurd hn (hs ▸ hr.not_nodup _)
  | undefined hn hs hd =>
    cases h' with
    | duplicate hs' hr' => exact absurd hn (hs' ▸ hr'.not_nodup _)
    | undefined _ hs' hd' =>
      obtain ⟨rfl, rfl⟩ := hd.unique hd' (hs.symm.trans hs')
      rfl

/-- Whether statements name every label once at most, and refer to labels that they define. -/
structure Resolvable (ss : List Statement) : Prop where
  distinct : (definedLabels ss).Nodup
  defined : ∀ name ∈ references ss, name ∈ definedLabels ss

theorem Fails.not_resolvable {ss : List Statement} {d : Diagnostic} (h : Fails ss d) :
    ¬ Resolvable ss := by
  intro hr
  cases h with
  | duplicate hs hd => exact hd.not_nodup _ (hs ▸ hr.distinct)
  | undefined _ hs hd =>
    subst hs
    exact hd.not_known _ hr.defined

/-- Statements are resolved against all of their labels, or fail. -/
theorem program_cases (ss : List Statement) :
    (Resolvable ss ∧ ∃ p, program ss = .ok p ∧ p.labels = labelsFrom 0 ss ∧
      ss.filterMap (·.resolution? p.labels) = p.instructions.toList.map .ok) ∨
    ∃ d, program ss = .error d ∧ Fails ss d := by
  rcases bindLabels_cases [] 0 ss (by simp) with ⟨hn, hb⟩ | ⟨front, s, back, name, hs, hr, hb⟩
  · rw [List.nil_append] at hb
    rcases resolve_cases (labelsFrom 0 ss) ss with
      ⟨hd, is, hr, hi⟩ | ⟨front, s, back, name, hs, hd, hr⟩
    · rw [names_labelsFrom] at hd
      exact .inl ⟨⟨by simpa using hn, hd⟩, ⟨is.toArray, labelsFrom 0 ss⟩,
        by simp [program, hb, hr, Except.map], rfl, hi⟩
    · rw [names_labelsFrom] at hd
      exact .inr ⟨_, by simp [program, hb, hr, Except.map], .undefined (by simpa using hn) hs hd⟩
  · exact .inr ⟨_, by simp [program, hb], .duplicate hs hr⟩

private theorem program_ok_iff {ss : List Statement} :
    (∃ p, program ss = .ok p) ↔ Resolvable ss := by
  rcases program_cases ss with ⟨hr, p, hp, -⟩ | ⟨d, hd, hf⟩
  · exact ⟨fun _ => hr, fun _ => ⟨p, hp⟩⟩
  · simp [hd, hf.not_resolvable]

theorem program_error_iff {ss : List Statement} {d : Diagnostic} :
    program ss = .error d ↔ Fails ss d := by
  rcases program_cases ss with ⟨hr, p, hp, -⟩ | ⟨d', hd, hf⟩
  · have : ¬ Fails ss d := fun h => h.not_resolvable hr
    simp [hp, this]
  · rw [hd]
    exact ⟨fun h => Except.error.inj h ▸ hf, fun h => congrArg _ (hf.unique h)⟩

/-- A program of statements: one instruction for each that has a body, and each label at the
index of the first instruction from its statement on. A branch has the index of its label, and the
machine that takes it goes on with that first instruction, or halts if there is none. -/
structure Resolved (ss : List Statement) (p : Program) : Prop where
  size : p.size = bodyCount ss
  instruction (front : List Statement) (s : Statement) (back : List Statement) :
    ss = front ++ s :: back → s.body.isSome →
      s.resolution? p.labels = (p.fetch? (bodyCount front)).map .ok
  names : p.labels.map Prod.fst = definedLabels ss
  label (name : String) (index : Nat) : p.labels.lookup name = some index ↔
    ∃ front s back, ss = front ++ s :: back ∧ s.label = some name ∧ index = bodyCount front
  branch (front : List Statement) (s : Statement) (back : List Statement) (b : Statement.Body)
    (name : String) : ss = front ++ s :: back → s.body = some b →
      b.operands.reference? = some name → ∃ index : Nat, p.labels.lookup name = some index ∧
        p.fetch? (bodyCount front) =
          some { op := b.op, imm := some (index : Int), line := s.line, label := some name }
  jump (front : List Statement) (s : Statement) (back : List Statement) (b : Statement.Body)
    (name : String) (front' : List Statement) (s' : Statement) (back' : List Statement)
    (m : Machine) : ss = front ++ s :: back → s.body = some b →
      b.operands.reference? = some name → ss = front' ++ s' :: back' → s'.label = some name →
      m.program = p → m.state.registers.pc = bodyCount front → b.op.branches m.state.registers →
        m.step.1 = .ok none ∧
        (s' :: back').findSome? (·.resolution? p.labels) = m.step.2.current?.map .ok

section Resolved
variable {ss front back front' back' : List Statement} {s s' : Statement} {b : Statement.Body}
  {p : Program} {name : String} {index : Nat}

theorem bodyCount_eq_length (labels : LabelTable) (ss : List Statement) :
    bodyCount ss = (ss.filterMap (·.resolution? labels)).length := by
  rw [List.length_filterMap_eq_countP]
  simp only [Statement.resolution?, Option.isSome_map]
  rfl

/-- Behind some of the statements the program goes on with the first instruction of the others. -/
theorem findSome?_resolution
    (hi : (front ++ back).filterMap (·.resolution? p.labels) = p.instructions.toList.map .ok) :
    back.findSome? (·.resolution? p.labels) = (p.fetch? (bodyCount front)).map .ok := by
  have hat := congrArg (·[bodyCount front]?) hi
  simp only [List.filterMap_append, List.getElem?_map] at hat
  rw [bodyCount_eq_length p.labels, List.getElem?_append_right (Nat.le_refl _), Nat.sub_self,
    ← List.head?_eq_getElem?, List.head?_filterMap, ← bodyCount_eq_length] at hat
  rw [hat, Program.fetch?]
  simp

private theorem fetch?_of_body
    (hi : (front ++ s :: back).filterMap (·.resolution? p.labels) =
      p.instructions.toList.map .ok) (hb : s.body.isSome) :
    s.resolution? p.labels = (p.fetch? (bodyCount front)).map .ok := by
  rw [← findSome?_resolution hi]
  obtain ⟨b, hb⟩ := Option.isSome_iff_exists.1 hb
  simp [Statement.resolution?, hb]

private theorem fetch?_of_reference
    (hi : (front ++ s :: back).filterMap (·.resolution? p.labels) =
      p.instructions.toList.map .ok) (hb : s.body = some b)
    (hr : b.operands.reference? = some name) (hl : p.labels.lookup name = some index) :
    p.fetch? (bodyCount front) =
      some { op := b.op, imm := some (index : Int), line := s.line, label := some name } := by
  have hf := fetch?_of_body hi (by simp [hb])
  rw [Statement.resolution?, hb, Option.map_some, resolveOperands_of_reference hr, hl] at hf
  obtain ⟨i, hfetch, hok⟩ := Option.map_eq_some_iff.1 hf.symm
  cases hok
  exact hfetch

/-- A branch that is taken goes on with the first instruction from its label on. -/
theorem step_of_reference
    (hi : ss.filterMap (·.resolution? p.labels) = p.instructions.toList.map .ok)
    (hl : p.labels.lookup name = some (bodyCount front')) (hs : ss = front ++ s :: back)
    (hb : s.body = some b) (hr : b.operands.reference? = some name)
    (hs' : ss = front' ++ s' :: back') {m : Machine} (hm : m.program = p)
    (hpc : m.state.registers.pc = bodyCount front) (taken : b.op.branches m.state.registers) :
    m.step.1 = .ok none ∧
      (s' :: back').findSome? (·.resolution? p.labels) = m.step.2.current?.map .ok := by
  have hfetch := fetch?_of_reference (hs ▸ hi) hb hr hl
  rw [← hm, ← hpc] at hfetch
  obtain ⟨hstep, hnext⟩ := Machine.step_of_branch hfetch taken
  rw [hnext, hm]
  exact ⟨hstep, findSome?_resolution (hs' ▸ hi)⟩

theorem resolved_of_ok (h : program ss = .ok p) : Resolved ss p := by
  obtain ⟨hr, hlabels, hi⟩ : Resolvable ss ∧ p.labels = labelsFrom 0 ss ∧
      ss.filterMap (·.resolution? p.labels) = p.instructions.toList.map .ok := by
    rcases program_cases ss with ⟨hr, q, hq, hlabels, hi⟩ | ⟨d, hd, -⟩
    · obtain rfl := Except.ok.inj (hq.symm.trans h)
      exact ⟨hr, hlabels, hi⟩
    · cases hd.symm.trans h
  have hnodup : (p.labels.map Prod.fst).Nodup := by
    rw [hlabels, names_labelsFrom]
    exact hr.distinct
  have hlabel (name : String) (index : Nat) : p.labels.lookup name = some index ↔ ∃ front s back,
      ss = front ++ s :: back ∧ s.label = some name ∧ index = bodyCount front := by
    rw [lookup_eq_some_iff_mem hnodup, hlabels, mem_labelsFrom_iff]
    simp
  constructor
  case size => rw [bodyCount_eq_length p.labels, hi, List.length_map]; rfl
  case instruction =>
    rintro front s back rfl hb
    exact fetch?_of_body hi hb
  case names => rw [hlabels, names_labelsFrom]
  case label => exact hlabel
  case branch =>
    rintro front s back b name rfl hb href
    have hdef := hr.defined name (List.mem_filterMap.2 ⟨s, by simp, by
      simpa [Statement.reference?, hb] using href⟩)
    rw [← names_labelsFrom 0, ← hlabels] at hdef
    obtain ⟨index, hl⟩ := Option.isSome_iff_exists.1 (lookup_isSome_iff.2 hdef)
    exact ⟨index, hl, fetch?_of_reference hi hb href hl⟩
  case jump =>
    intro front s back b name front' s' back' m hs hb href hs' hl hm hpc taken
    exact step_of_reference hi ((hlabel name _).2 ⟨front', s', back', hs', hl, rfl⟩) hs hb href hs'
      hm hpc taken

end Resolved

/-- Statements are a program if they define no label twice and all that they refer to, and then it
has their instructions and labels. Otherwise the first label that is defined again is reported, or
else the first reference without a label, and no program is kept. -/
theorem program_exact (ss : List Statement) :
    ((∃ p, program ss = .ok p) ↔ (definedLabels ss).Nodup ∧
      ∀ name ∈ references ss, name ∈ definedLabels ss) ∧
    (∀ p, program ss = .ok p → Resolved ss p) ∧
    (∀ d, program ss = .error d ↔ Fails ss d) ∧
    ∀ session : Session, (session.assembleStatements ss).1 = program ss ∧
      (session.assembleStatements ss).2.program = (program ss).toOption := by
  refine ⟨?_, fun p => resolved_of_ok, fun d => program_error_iff, fun session => ⟨rfl, rfl⟩⟩
  rw [program_ok_iff]
  exact ⟨fun h => ⟨h.distinct, h.defined⟩, fun h => ⟨h.1, h.2⟩⟩

end Assembly
end MiniRisc
