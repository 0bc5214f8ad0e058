import MiniRisc.Proofs.Statement.Append
import MiniRisc.Proofs.Token.Located
/-! Statements and refusals of a source text on its lines: a statement has the line of its first
token, and a token that is refused is one of the text. -/
namespace MiniRisc.Statement
open Grammar

/-- A statement has the number and the trimmed text of the line that a token is on. -/
def BeginsAt (lines : List String) (s : Statement) (first : Token) : Prop :=
  s.line = first.place.line ∧ s.text = Text.trim (Text.lineAt lines first.place.line)

section Rows
variable {lines : List String} {rows : List LineTokens} {tokens : List Token}
  {s : Statement} {ss : List Statement}

theorem Lines.mem (h : Lines rows tokens) :
    ∀ row ∈ rows, ∀ t ∈ row.ahead ++ [row.stop], t ∈ tokens := by
  induction h with
  | last =>
    intro row hr t ht
    rwa [List.mem_singleton.1 hr] at ht
  | @cons first rows tokens closed stop rest ih =>
    intro row hr t ht
    rw [List.append_cons, List.mem_append]
    rcases List.mem_cons.1 hr with rfl | hr
    · exact .inl ht
    · exact .inr (ih row hr t ht)

theorem beginsAt_of_row (h : Row lines tokens (some s)) :
    ∃ first rest, tokens = first :: rest ∧ s.BeginsAt lines first := by
  cases h with
  | @line first rest => exact ⟨first, rest, rfl, rfl, rfl⟩

/-- Every statement is derived from one of the lines. -/
theorem Derives.mem (h : Derives lines rows ss) :
    ∀ s ∈ ss, ∃ row ∈ rows, Row lines row.ahead (some s) := by
  induction h with
  | nil => simp
  | @cons row t rows ss head tail ih =>
    intro s hs
    rcases List.mem_append.1 hs with hs | hs
    · rw [Option.mem_toList] at hs
      rw [hs] at head
      exact ⟨row, List.mem_cons_self, head⟩
    · obtain ⟨row', hr, hrow⟩ := ih s hs
      exact ⟨row', List.mem_cons_of_mem _ hr, hrow⟩

theorem Derives.beginsAt (h : Derives lines rows ss) :
    ∀ s ∈ ss, ∃ row ∈ rows, ∃ first rest, row.ahead = first :: rest ∧ s.BeginsAt lines first := by
  intro s hs
  obtain ⟨row, hr, hrow⟩ := h.mem s hs
  exact ⟨row, hr, beginsAt_of_row hrow⟩

end Rows

section Source
variable {source : String} {d : Diagnostic} {ss : List Statement}

/-- The tokens of a text up to its end are cut into lines, the last of which ends with the text. -/
theorem rows_of_ofSource {tokens : List Token} (h : Token.ofSource source = .ok tokens) :
    ∃ front stop, tokens = front ++ [stop] ∧ Lines (rows stop front) tokens := by
  obtain ⟨segments, hall, rfl⟩ := tokens_of_ofSource h
  have hopen := Segment.kind_ne_textEnd (Segment.all_eq_iff.1 hall) {}
  exact ⟨_, _, rfl, lines_rows hopen rfl⟩

theorem lines_of_ofSource {tokens : List Token} (h : Token.ofSource source = .ok tokens) :
    ∃ rows, Lines rows tokens := by
  obtain ⟨front, stop, -, hlines⟩ := rows_of_ofSource h
  exact ⟨_, hlines⟩

/-- A text without statements cannot be read, or one of its tokens is refused. -/
theorem ofSource_refused (h : ofSource source = .error d) : Token.ofSource source = .error d ∨
    ∃ tokens fault, ∃ token ∈ tokens, Token.ofSource source = .ok tokens ∧
      d = .grammatical fault token (Text.lineAt (Text.lines source) token.place.line) := by
  rcases Outcome.bind_eq_error_iff.1 h with ht | ⟨tokens, ht, hs⟩
  · exact .inl ht
  · obtain ⟨rows, hlines⟩ := lines_of_ofSource ht
    rcases ofTokens_cases (Text.lines source) hlines with
      ⟨ss, -, hss⟩ | ⟨front, row, back, hr, -, -, fault, token, hm, hd⟩
    · cases hss.symm.trans hs
    · refine .inr ⟨tokens, fault, token, ?_, ht, Except.error.inj (hs.symm.trans hd)⟩
      exact hlines.mem row (by simp [hr]) token hm

/-- Every statement of a text begins at one of its tokens. -/
theorem ofSource_beginsAt (h : ofSource source = .ok ss) : ∀ s ∈ ss, ∃ tokens, ∃ first ∈ tokens,
    Token.ofSource source = .ok tokens ∧ s.BeginsAt (Text.lines source) first := by
  intro s hs
  obtain ⟨tokens, ht, hss⟩ := Outcome.bind_eq_ok_iff.1 h
  obtain ⟨rows, hlines⟩ := lines_of_ofSource ht
  obtain ⟨row, hr, first, rest, hahead, hfirst⟩ := ((ofTokens_ok_iff hlines).1 hss).beginsAt s hs
  exact ⟨tokens, first, hlines.mem row hr first (by simp [hahead]), ht, hfirst⟩

end Source
end MiniRisc.Statement
