import MiniRisc.Proofs.Assembly.Form
/-! Labels of statements: which are defined, which are referred to, and the table that binding
them makes. -/
namespace MiniRisc

def Operands.reference? {shape : Shape} : Operands shape → Option String
  | branch label => some label
  | _ => none

def Statement.reference? (s : Statement) : Option String :=
  s.body.bind fun b => b.operands.reference?

namespace Assembly

def definedLabels (ss : List Statement) : List String := ss.filterMap (·.label)

def references (ss : List Statement) : List String := ss.filterMap (·.reference?)

def entry (index : Nat) (s : Statement) : LabelTable :=
  (s.label.map fun name => (name, index)).toList

/-- The labels of statements, each with the index of the next instruction. -/
def labelsFrom (index : Nat) : List Statement → LabelTable
  | [] => []
  | s :: rest => entry index s ++ labelsFrom (if s.body.isSome then index + 1 else index) rest

theorem definedLabels_append (front back : List Statement) :
    definedLabels (front ++ back) = definedLabels front ++ definedLabels back :=
  List.filterMap_append ..

theorem definedLabels_cons (s : Statement) (rest : List Statement) :
    definedLabels (s :: rest) = s.label.toList ++ definedLabels rest := by
  cases h : s.label <;> simp [definedLabels, h]

theorem references_cons (s : Statement) (rest : List Statement) :
    references (s :: rest) = s.reference?.toList ++ references rest := by
  cases h : s.reference? <;> simp [references, h]

private theorem names_entry (index : Nat) (s : Statement) :
    (entry index s).map Prod.fst = s.label.toList := by
  cases h : s.label <;> simp [entry, h]

theorem names_labelsFrom (index : Nat) (ss : List Statement) :
    (labelsFrom index ss).map Prod.fst = definedLabels ss := by
  induction ss generalizing index with
  | nil => rfl
  | cons s rest ih =>
    rw [labelsFrom, List.map_append, ih, definedLabels_cons, names_entry]

/-- A label stands in the table for the number of instructions before its statement. -/
theorem mem_labelsFrom_iff {index : Nat} {ss : List Statement} {name : String} {k : Nat} :
    (name, k) ∈ labelsFrom index ss ↔ ∃ front s back, ss = front ++ s :: back ∧
      s.label = some name ∧ k = index + bodyCount front := by
  induction ss generalizing index with
  | nil => simp [labelsFrom]
  | cons s rest ih =>
    rw [labelsFrom, List.mem_append, ih]
    constructor
    · rintro (h | ⟨front, t, back, rfl, hl, rfl⟩)
      · obtain ⟨_, hl, h⟩ := Option.map_eq_some_iff.1 (Option.mem_toList.1 h)
        cases h
        exact ⟨[], s, rest, rfl, hl, rfl⟩
      · exact ⟨s :: front, t, back, rfl, hl, bodyCount_cons s front index⟩
    · rintro ⟨front, t, back, hsplit, hl, rfl⟩
      cases front with
      | nil =>
        obtain ⟨rfl, rfl⟩ := List.cons.inj hsplit
        exact .inl (by simp [entry, hl, bodyCount])
      | cons u front =>
        obtain ⟨rfl, rfl⟩ := List.cons.inj hsplit
        exact .inr ⟨front, t, back, rfl, hl, (bodyCount_cons s front index).symm⟩

/-- In a table of distinct labels every entry is found. -/
theorem lookup_eq_some_iff_mem {labels : LabelTable} (h : (labels.map Prod.fst).Nodup)
    {name : String} {index : Nat} : labels.lookup name = some index ↔ (name, index) ∈ labels := by
  induction labels with
  | nil => simp
  | cons e rest ih =>
    obtain ⟨other, k⟩ := e
    obtain ⟨hfresh, hrest⟩ := List.nodup_cons.1 h
    rw [List.lookup_cons, List.mem_cons, ← ih hrest]
    by_cases hname : name = other
    · subst hname
      have habsent : rest.lookup name ≠ some index := fun hf =>
        hfresh (List.mem_map.2 ⟨(name, index), (ih hrest).1 hf, rfl⟩)
      simp [habsent, eq_comm]
    · simp [beq_eq_false_iff_ne.2 hname, hname]

theorem lookup_isSome_iff {labels : LabelTable} {name : String} :
    (labels.lookup name).isSome ↔ name ∈ labels.map Prod.fst := by
  induction labels with
  | nil => simp
  | cons e rest ih =>
    obtain ⟨other, k⟩ := e
    rw [List.lookup_cons, List.map_cons, List.mem_cons, ← ih]
    by_cases hname : name = other
    · simp [hname]
    · simp [beq_eq_false_iff_ne.2 hname, hname]

/-- A statement behind others is the first whose label is known or defined before. -/
structure Repeats (known : List String) (front : List Statement) (s : Statement) (name : String) :
    Prop where
  label : s.label = some name
  distinct : (known ++ definedLabels front).Nodup
  earlier : name ∈ known ++ definedLabels front

theorem Repeats.not_nodup {known : List String} {front : List Statement} {s : Statement}
    {name : String} (h : Repeats known front s name) (back : List Statement) :
    ¬ (known ++ definedLabels (front ++ s :: back)).Nodup := by
  rw [definedLabels_append, definedLabels_cons, h.label, ← List.append_assoc]
  intro hn
  exact (List.nodup_append.1 hn).2.2 name h.earlier name (by simp) rfl

section Step
variable {labels : LabelTable} {index : Nat} {s : Statement} {rest : List Statement}

private theorem bindLabels_of_known {name : String} (h : s.label = some name)
    (hk : name ∈ labels.map Prod.fst) : bindLabels labels index (s :: rest) =
      (labels, some ⟨.duplicateLabel name, s.line, s.text⟩) := by
  simp only [bindLabels, h, lookup_isSome_iff.2 hk, ↓reduceIte]

private theorem bindLabels_of_fresh (h : ∀ name, s.label = some name → name ∉ labels.map Prod.fst) :
    bindLabels labels index (s :: rest) =
      bindLabels (labels ++ entry index s) (if s.body.isSome then index + 1 else index) rest := by
  cases hl : s.label with
  | none => simp [bindLabels, entry, hl]
  | some name =>
    have hnone : ¬ (labels.lookup name).isSome := fun hs => h name hl (lookup_isSome_iff.1 hs)
    simp only [bindLabels, entry, hl, hnone, Bool.false_eq_true, ↓reduceIte]
    rfl

end Step

/-- Labels are bound to the indices of the next instructions, up to the first that is known
already. -/
theorem bindLabels_cases (labels : LabelTable) (index : Nat) (ss : List Statement)
    (hn : (labels.map Prod.fst).Nodup) :
    ((labels.map Prod.fst ++ definedLabels ss).Nodup ∧
      bindLabels labels index ss = (labels ++ labelsFrom index ss, none)) ∨
    ∃ front s back name, ss = front ++ s :: back ∧ Repeats (labels.map Prod.fst) front s name ∧
      bindLabels labels index ss =
        (labels ++ labelsFrom index front, some ⟨.duplicateLabel name, s.line, s.text⟩) := by
  -- The table grows along the list: a label that is bound is known to the rest.
  induction ss generalizing labels index with
  | nil => exact .inl ⟨by simpa [definedLabels] using hn, by simp [bindLabels, labelsFrom]⟩
  | cons s rest ih =>
    by_cases hk : ∃ name, s.label = some name ∧ name ∈ labels.map Prod.fst
    · obtain ⟨name, hl, hk⟩ := hk
      refine .inr ⟨[], s, rest, name, rfl, ⟨hl, ?_, List.mem_append_left _ hk⟩, ?_⟩
      · simpa [definedLabels] using hn
      · rw [bindLabels_of_known hl hk, labelsFrom, List.append_nil]
    · have hfresh : ∀ name, s.label = some name → name ∉ labels.map Prod.fst :=
        fun name hl hm => hk ⟨name, hl, hm⟩
      have hnames (ts : List Statement) : labels.map Prod.fst ++ definedLabels (s :: ts) =
          (labels ++ entry index s).map Prod.fst ++ definedLabels ts := by
        rw [definedLabels_cons, List.map_append, names_entry, List.append_assoc]
      have htable (ts : List Statement) : labels ++ labelsFrom index (s :: ts) =
          labels ++ entry index s ++
            labelsFrom (if s.body.isSome then index + 1 else index) ts := by
        rw [labelsFrom, List.append_assoc]
      have hn' : ((labels ++ entry index s).map Prod.fst).Nodup := by
        rw [List.map_append, names_entry]
        refine List.nodup_append.2 ⟨hn, by cases s.label <;> simp, fun a ha b hb e => ?_⟩
        exact hfresh b (Option.mem_toList.1 hb) (e ▸ ha)
      rw [bindLabels_of_fresh hfresh, hnames, htable]
      rcases ih _ (if s.body.isSome then index + 1 else index) hn' with
        hd | ⟨front, t, back, name, rfl, hr, hb⟩
      · exact .inl hd
      · refine .inr ⟨s :: front, t, back, name, rfl, ⟨hr.label, ?_, ?_⟩, ?_⟩
        · exact hnames front ▸ hr.distinct
        · exact hnames front ▸ hr.earlier
        · rw [htable, hb]

end Assembly
end MiniRisc
