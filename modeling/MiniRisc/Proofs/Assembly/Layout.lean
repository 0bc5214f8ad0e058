import MiniRisc.Proofs.Assembly.Append
import MiniRisc.Proofs.Assembly.Printing
/-! Layouts of programs in lines: an instruction to a line, and the labels of an index in lines of
their own above it. Such lines bind the same labels to the same indices again. -/
namespace MiniRisc
namespace Assembly
open Statement

section Contents
variable {labels : LabelTable} {index : Nat} {ss ss' : List Statement}

private theorem labelsFrom_congr (h : ss.map content = ss'.map content) (index : Nat) :
    labelsFrom index ss = labelsFrom index ss' := by
  induction ss generalizing ss' index with
  | nil =>
    obtain rfl := List.map_eq_nil_iff.1 h.symm
    rfl
  | cons s ss ih =>
    cases ss' with
    | nil => cases h
    | cons s' ss' =>
      obtain ⟨hs, hss⟩ := List.cons.inj h
      obtain ⟨hlabel, hbody⟩ := Prod.mk.inj hs
      rw [labelsFrom, labelsFrom, ih hss, entry, entry, hlabel, hbody]

/-- Labels are bound in the order of their indices. -/
theorem labelsFrom_sorted (index : Nat) (ss : List Statement) :
    (labelsFrom index ss).Pairwise fun e f => e.2 ≤ f.2 := by
  induction ss generalizing index with
  | nil => exact .nil
  | cons s rest ih =>
    rw [labelsFrom]
    refine List.pairwise_append.2 ⟨?_, ih _, fun e he f hf => ?_⟩
    · unfold entry
      cases s.label <;> simp
    · obtain ⟨name, -, rfl⟩ := Option.map_eq_some_iff.1 (Option.mem_toList.1 he)
      obtain ⟨front, t, back, -, -, hk⟩ := mem_labelsFrom_iff.1 (show (f.1, f.2) ∈ _ from hf)
      simp only
      split at hk <;> omega

/-- In a table in the order of indices, the labels of one index come before those of higher ones. -/
theorem filter_sorted {labels : LabelTable} (h : labels.Pairwise fun e f => e.2 ≤ f.2)
    (index : Nat) : labels.filter (·.2 = index) ++ labels.filter (index + 1 ≤ ·.2) =
      labels.filter (index ≤ ·.2) := by
  induction labels with
  | nil => rfl
  | cons e rest ih =>
    obtain ⟨hfirst, hrest⟩ := List.pairwise_cons.1 h
    have ih := ih hrest
    rcases Nat.lt_trichotomy e.2 index with hlt | heq | hgt
    · rw [List.filter_cons_of_neg (by simp; omega), List.filter_cons_of_neg (by simp; omega),
        List.filter_cons_of_neg (by simp; omega), ih]
    · rw [List.filter_cons_of_pos (by simp; omega), List.filter_cons_of_neg (by simp; omega),
        List.filter_cons_of_pos (by simp; omega), List.cons_append, ih]
    · have hnone : (e :: rest).filter (·.2 = index) = [] := by
        apply List.filter_eq_nil_iff.2
        intro f hf
        rcases List.mem_cons.1 hf with rfl | hf
        · simp; omega
        · have := hfirst f hf
          simp; omega
      rw [hnone, List.nil_append]
      apply List.filter_congr
      intro f hf
      rcases List.mem_cons.1 hf with rfl | hf
      · simp; omega
      · have := hfirst f hf
        simp; omega

end Contents

abbrev Layout := List (String × Content)

def labelLayout (labels : LabelTable) (index : Nat) : Layout :=
  (labels.filter (·.2 = index)).map fun e => (e.1 ++ ":", some e.1, none)

/-- The lines of instructions from an index on, with the bodies that they are read as. The labels
behind the last instruction come last. -/
def layoutFrom (labels : LabelTable) (index : Nat) : List (String × Body) → Layout
  | [] => labelLayout labels index
  | e :: rest =>
    labelLayout labels index ++ (e.1, none, some e.2) :: layoutFrom labels (index + 1) rest

def ofContent (c : Content) : Statement := ⟨0, "", c.1, c.2⟩

section Layout
variable {labels : LabelTable} {index : Nat} {es : List (String × Body)} {ss : List Statement}

private theorem lineReads_label {name : String} (hw : IsWord name) (hn : ¬ Grammar.Reserved name) :
    LineReads (name ++ ":") (some name, none) := by
  refine ⟨_, ?_, .label hn⟩
  rw [String.toList_append]
  exact .word (spells_name hw) (stopsAt_cons rfl) (.mark .colon .nil)

theorem lineReads_layout (hw : ∀ e ∈ labels, IsWord e.1 ∧ ¬ Grammar.Reserved e.1)
    (h : ∀ e ∈ es, LineReads e.1 (none, some e.2)) (index : Nat) :
    ∀ l ∈ layoutFrom labels index es, LineReads l.1 l.2 := by
  have hlabels (index : Nat) : ∀ l ∈ labelLayout labels index, LineReads l.1 l.2 := by
    intro l hl
    obtain ⟨e, he, rfl⟩ := List.mem_map.1 hl
    obtain ⟨hword, hfree⟩ := hw e (List.mem_of_mem_filter he)
    exact lineReads_label hword hfree
  induction es generalizing index with
  | nil => exact hlabels index
  | cons e rest ih =>
    intro l hl
    rcases List.mem_append.1 hl with hl | hl
    · exact hlabels index l hl
    · rcases List.mem_cons.1 hl with rfl | hl
      · exact h e List.mem_cons_self
      · exact ih (fun f hf => h f (List.mem_cons_of_mem e hf)) (index + 1) l hl

/-- The bodies of the lines are those of the instructions. -/
theorem bodies_layout
    (h : ss.map content = (layoutFrom labels index es).map Prod.snd) :
    ss.filterMap (·.body) = es.map Prod.snd := by
  have hbodies : ss.filterMap (·.body) =
      ((layoutFrom labels index es).map Prod.snd).filterMap Prod.snd := by
    rw [← h, List.filterMap_map]
    rfl
  have hlabels (index : Nat) :
      ((labelLayout labels index).map Prod.snd).filterMap Prod.snd = [] := by
    simp [labelLayout, Function.comp_def]
  rw [hbodies]
  clear h hbodies
  induction es generalizing index with
  | nil => exact hlabels index
  | cons e rest ih =>
    rw [layoutFrom, List.map_append, List.filterMap_append, hlabels, List.map_cons,
      List.filterMap_cons, ih]
    rfl

private theorem labelsFrom_labels {table : LabelTable} (h : ∀ e ∈ table, e.2 = index)
    (back : List Statement) :
    labelsFrom index ((table.map fun e => ofContent (some e.1, none)) ++ back) =
      table ++ labelsFrom index back := by
  induction table with
  | nil => rfl
  | cons e rest ih =>
    obtain ⟨name, k⟩ := e
    obtain rfl : k = index := h _ List.mem_cons_self
    have hrest := ih fun f hf => h f (List.mem_cons_of_mem _ hf)
    rw [List.map_cons, List.cons_append, labelsFrom]
    exact congrArg ((name, k) :: ·) hrest

/-- The lines bind the labels of the table again. -/
theorem labelsFrom_layout (hsorted : labels.Pairwise fun e f => e.2 ≤ f.2)
    (hbound : ∀ e ∈ labels, e.2 ≤ index + es.length)
    (h : ss.map content = (layoutFrom labels index es).map Prod.snd) :
    labelsFrom index ss = labels.filter (index ≤ ·.2) := by
  -- Labels are bound by contents alone, so statements on no line bind the same ones.
  have hblank : ss.map content =
      (((layoutFrom labels index es).map Prod.snd).map ofContent).map content := by
    rw [h, List.map_map]
    exact (List.map_id _).symm
  have hlabels (index : Nat) (back : List Statement) :
      labelsFrom index (((labelLayout labels index).map Prod.snd).map ofContent ++ back) =
        labels.filter (·.2 = index) ++ labelsFrom index back := by
    rw [labelLayout, List.map_map, List.map_map]
    refine labelsFrom_labels (fun e he => ?_) back
    simpa using (List.mem_filter.1 he).2
  rw [labelsFrom_congr hblank]
  clear h hblank
  induction es generalizing index with
  | nil =>
    have hlast := hlabels index []
    rw [List.append_nil] at hlast
    rw [layoutFrom, hlast, labelsFrom, List.append_nil]
    apply List.filter_congr
    intro e he
    have hle : e.2 ≤ index := hbound e he
    simp
    omega
  | cons e rest ih =>
    have hrest : ∀ e ∈ labels, e.2 ≤ index + 1 + rest.length := by
      intro f hf
      have hle := hbound f hf
      rw [List.length_cons] at hle
      omega
    rw [layoutFrom, List.map_append, List.map_append, hlabels, List.map_cons, List.map_cons,
      ← filter_sorted hsorted, ← ih hrest]
    rfl

end Layout
end Assembly
end MiniRisc
