import MiniRisc.Proofs.Statement.Append
import MiniRisc.Proofs.Token.Spelling
/-! Statements of lines that are written token by token, and the labels of statements, which are
words without a meaning of their own. -/
namespace MiniRisc.Statement
open Grammar

abbrev Content := Option String × Option Body

def content (s : Statement) : Content := (s.label, s.body)

@[simp] theorem content_moved (lines : List String) (k : Nat) (s : Statement) :
    (moved lines k s).content = s.content := rfl

/-- A line that is written token by token and says what is given. -/
def LineReads (line : String) (c : Content) : Prop :=
  ∃ kinds, Spelled line.toList kinds ∧ Line kinds c.1 c.2

section Lines
variable {lines : List String} {stop : Token} {tokens : List Token}

/-- Without a line end there is one line. -/
theorem rows_of_inner (h : ∀ t ∈ tokens, t.kind.endsLine = false) :
    rows stop tokens = [⟨tokens, stop⟩] := by
  induction tokens with
  | nil => rfl
  | cons t rest ih =>
    have ht : t.kind ≠ .lineEnd := by
      intro hk
      have hinner := h t List.mem_cons_self
      rw [hk] at hinner
      cases hinner
    rw [rows, if_neg ht, ih fun u hu => h u (List.mem_cons_of_mem t hu)]
    rfl

theorem Line.kinds_ne_nil {kinds : List Token.Kind} {label : Option String} {body : Option Body}
    (h : Line kinds label body) : kinds ≠ [] := by
  cases h with
  | instruction hb =>
    cases hb
    simp
  | _ => simp

private theorem written_of_line {line : String} {c : Content} (h : LineReads line c)
    (lines : List String) : ∃ s, Written lines line.toList [s] ∧ s.content = c := by
  obtain ⟨kinds, hspelled, hline⟩ := h
  obtain ⟨segments, hseg, hkinds⟩ := hspelled.segmentation
  have htokens : (Segment.tokens {} segments).map (·.kind) = kinds := by
    rw [Segment.kinds_tokens, hkinds]
  have hinner : ∀ t ∈ Segment.tokens {} segments, t.kind.endsLine = false := fun t ht =>
    hspelled.inner _ (htokens ▸ List.mem_map_of_mem ht)
  obtain ⟨first, rest, hfirst⟩ : ∃ first rest, Segment.tokens {} segments = first :: rest := by
    apply List.exists_cons_of_ne_nil
    intro hnil
    rw [hnil] at htokens
    exact Line.kinds_ne_nil hline htokens.symm
  rw [← htokens, hfirst] at hline
  let s : Statement :=
    ⟨first.place.line, Text.trim (Text.lineAt lines first.place.line), c.1, c.2⟩
  have hd : Derives lines (rows ⟨.textEnd, {}⟩ (Segment.tokens {} segments)) [s] := by
    rw [rows_of_inner hinner, hfirst]
    exact .cons (s := some s) (.line hline) .nil
  exact ⟨s, ⟨segments, _, hseg, hd⟩, rfl⟩

private theorem written_nil (lines : List String) : Written lines [] [] := by
  have hd : Derives lines (rows ⟨.textEnd, {}⟩ (Segment.tokens {} [])) [] :=
    .cons (s := none) .empty .nil
  exact ⟨[], _, .nil, hd⟩

/-- Lines say each what it says by itself. -/
theorem written_of_lines {ls : List (String × Content)} (h : ∀ l ∈ ls, LineReads l.1 l.2)
    (lines : List String) :
    ∃ ss, Written lines (ls.flatMap fun l => l.1.toList ++ ['\n']) ss ∧
      ss.map content = ls.map Prod.snd := by
  induction ls generalizing lines with
  | nil => exact ⟨[], written_nil lines, rfl⟩
  | cons l rest ih =>
    obtain ⟨s, hs, hc⟩ := written_of_line (h l List.mem_cons_self) lines
    obtain ⟨ss, hss, hcs⟩ := ih (fun u hu => h u (List.mem_cons_of_mem l hu)) lines
    refine ⟨[s].map (moved lines 0) ++ ss.map (moved lines (l.1.toList.count '\n' + 1)), ?_, ?_⟩
    · rw [List.flatMap_cons, List.append_assoc]
      exact hs.line hss
    · simp [hc, ← hcs, Function.comp_def]

private theorem return_not_mem_of_lines {ls : List (String × Content)}
    (h : ∀ l ∈ ls, LineReads l.1 l.2) : '\r' ∉ ls.flatMap fun l => l.1.toList ++ ['\n'] := by
  intro hm
  obtain ⟨l, hl, hm⟩ := List.mem_flatMap.1 hm
  obtain ⟨kinds, hspelled, -⟩ := h l hl
  rcases List.mem_append.1 hm with hm | hm
  · exact hspelled.return_not_mem hm
  · exact absurd hm (by decide)

/-- The text of lines with a line feed behind each is made up of what they say. -/
theorem ofSource_of_lines {ls : List (String × Content)} (h : ∀ l ∈ ls, LineReads l.1 l.2) :
    ∃ ss, ofSource (String.join (ls.map fun l => l.1 ++ "\n")) = .ok ss ∧
      ss.map content = ls.map Prod.snd := by
  have htext : (String.join (ls.map fun l => l.1 ++ "\n")).toList =
      ls.flatMap fun l => l.1.toList ++ ['\n'] := by
    simp [String.toList_join, List.flatMap_map]
  obtain ⟨ss, hss, hcontent⟩ :=
    written_of_lines h (Text.lines (String.join (ls.map fun l => l.1 ++ "\n")))
  refine ⟨ss, ofSource_ok_iff.2 ?_, hcontent⟩
  rwa [htext, Text.foldNewlines_of_not_mem (return_not_mem_of_lines h)]

end Lines

section Labels
variable {lines : List String} {rows : List LineTokens} {ss : List Statement} {text : List Char}

private theorem mem_of_mem_rows {stop : Token} {tokens : List Token} :
    ∀ row ∈ Statement.rows stop tokens, ∀ t ∈ row.ahead, t ∈ tokens := by
  induction tokens with
  | nil => simp [Statement.rows]
  | cons t rest ih =>
    intro row hrow u hu
    rw [Statement.rows] at hrow
    split at hrow
    · rcases List.mem_cons.1 hrow with rfl | hrow
      · cases hu
      · exact List.mem_cons_of_mem t (ih row hrow u hu)
    · cases hr : Statement.rows stop rest with
      | nil => exact absurd hr (rows_ne_nil stop rest)
      | cons first others =>
        rw [hr] at hrow ih
        rcases List.mem_cons.1 hrow with rfl | hrow
        · rcases List.mem_cons.1 hu with rfl | hu
          · exact List.mem_cons_self
          · exact List.mem_cons_of_mem t (ih first List.mem_cons_self u hu)
        · exact List.mem_cons_of_mem t (ih row (List.mem_cons_of_mem first hrow) u hu)

/-- A label that a line defines is a name on it without a meaning of its own. -/
theorem label_of_row {tokens : List Token} {s : Statement} (h : Row lines tokens (some s))
    {name : String} (hn : s.label = some name) :
    (∃ t ∈ tokens, t.kind = .name name) ∧ ¬ Reserved name := by
  cases h with
  | @line first rest label body hline =>
    obtain rfl : label = some name := hn
    generalize hkinds : (first :: rest).map (·.kind) = kinds at hline
    cases hline with
    | label free | both free =>
      exact ⟨⟨first, List.mem_cons_self, (List.cons.inj hkinds).1⟩, free⟩

theorem Derives.label (h : Derives lines rows ss) : ∀ s ∈ ss, ∀ name, s.label = some name →
    (∃ row ∈ rows, ∃ t ∈ row.ahead, t.kind = .name name) ∧ ¬ Reserved name := by
  induction h with
  | nil => simp
  | @cons row s rows ss head tail ih =>
    intro u hu name hn
    rcases List.mem_append.1 hu with hu | hu
    · obtain rfl := Option.mem_toList.1 hu
      obtain ⟨htoken, hfree⟩ := label_of_row head hn
      exact ⟨⟨row, List.mem_cons_self, htoken⟩, hfree⟩
    · obtain ⟨⟨row', hrow, htoken⟩, hfree⟩ := ih u hu name hn
      exact ⟨⟨row', List.mem_cons_of_mem row hrow, htoken⟩, hfree⟩

/-- Labels are words without a meaning of their own. -/
theorem Written.label (h : Written lines text ss) :
    ∀ s ∈ ss, ∀ name, s.label = some name → IsWord name ∧ ¬ Reserved name := by
  obtain ⟨segments, stop, hseg, hd⟩ := h
  intro s hs name hn
  obtain ⟨⟨row, hrow, t, ht, hk⟩, hfree⟩ := hd.label s hs name hn
  exact ⟨Segment.isWord_of_segmentation hseg {} t (mem_of_mem_rows row hrow t ht) name hk, hfree⟩

end Labels
end MiniRisc.Statement
