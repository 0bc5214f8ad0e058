import MiniRisc.Proofs.Statement.Lines
import MiniRisc.Proofs.Token.Append
/-! Statements of texts one below the other: those of the first, then those of the second as many
lines further down. What a line says does not depend on where it stands. -/
namespace MiniRisc.Statement
open Grammar

section Rows
variable {stop stop' t : Token} {tokens front back : List Token}

theorem rows_ne_nil (stop : Token) (tokens : List Token) : rows stop tokens ≠ [] := by
  induction tokens with
  | nil => simp [rows]
  | cons t rest ih =>
    rw [rows]
    split
    · simp
    · cases hr : rows stop rest with
      | nil => exact absurd hr ih
      | cons row others => simp

/-- Lines of tokens up to a line end, and those behind it. -/
theorem rows_lineEnd (ht : t.kind = .lineEnd) :
    rows stop (front ++ t :: back) = rows t front ++ rows stop back := by
  induction front with
  | nil =>
    rw [List.nil_append, rows, rows, if_pos ht]
    rfl
  | cons u front ih =>
    rw [List.cons_append, rows, rows, ih]
    split
    · rfl
    · cases hr : rows t front with
      | nil => exact absurd hr (rows_ne_nil t front)
      | cons row others => rfl

/-- Where the tokens of a text stand, and how the text ends, does not change what is on its
lines. -/
theorem ahead_rows (k : Nat) (stop stop' : Token) (tokens : List Token) :
    (rows stop (tokens.map (Token.below k))).map (·.ahead) =
      (rows stop' tokens).map fun row => row.ahead.map (Token.below k) := by
  induction tokens with
  | nil => rfl
  | cons t rest ih =>
    rw [List.map_cons, rows, rows, Token.kind_below]
    split
    · rw [List.map_cons, List.map_cons, ih]
      rfl
    · revert ih
      cases rows stop (rest.map (Token.below k)) <;> cases rows stop' rest <;> simp

private theorem ahead_rows_stop (stop stop' : Token) (tokens : List Token) :
    (rows stop tokens).map (·.ahead) = (rows stop' tokens).map (·.ahead) := by
  have hahead := ahead_rows 0 stop stop' tokens
  simpa [Token.below_zero] using hahead

end Rows

section Derivations
variable {lines lines' : List String} {above under : List LineTokens} {ss ss' : List Statement}
  {tokens : List Token}

theorem ofTokens_ok_iff (h : Lines above tokens) :
    ofTokens lines tokens = .ok ss ↔ Derives lines above ss := by
  rcases ofTokens_cases lines h with ⟨ss', hd, ht⟩ | ⟨front, row, back, rfl, -, hn, _, _, -, ht⟩
  · rw [ht]
    exact ⟨fun he => Except.ok.inj he ▸ hd, fun hd' => congrArg _ (hd.unique hd' h.closed)⟩
  · rw [ht]
    exact ⟨(nomatch ·), fun hd => absurd (hd.exists_row row (by simp)) hn⟩

theorem Derives.congr (h : Derives lines above ss)
    (hr : under.map (·.ahead) = above.map (·.ahead)) : Derives lines under ss := by
  induction h generalizing under with
  | nil =>
    obtain rfl := List.map_eq_nil_iff.1 hr
    exact .nil
  | cons head tail ih =>
    cases under with
    | nil => cases hr
    | cons row under =>
      obtain ⟨hahead, hrest⟩ := List.cons.inj hr
      refine .cons ?_ (ih hrest)
      rw [show row.ahead = _ from hahead]
      exact head

theorem Derives.append (h : Derives lines above ss) (h' : Derives lines under ss') :
    Derives lines (above ++ under) (ss ++ ss') := by
  induction h with
  | nil => exact h'
  | cons head tail ih =>
    rw [List.append_assoc]
    exact .cons head ih

private theorem Derives.exists_append (h : Derives lines (above ++ under) ss) :
    ∃ front back, ss = front ++ back ∧ Derives lines above front ∧ Derives lines under back := by
  induction above generalizing ss with
  | nil => exact ⟨[], ss, rfl, .nil, h⟩
  | cons row above ih =>
    cases h with
    | cons head tail =>
      obtain ⟨front, back, rfl, hf, hb⟩ := ih tail
      exact ⟨_, back, (List.append_assoc ..).symm, .cons head hf, hb⟩

end Derivations

def moved (lines : List String) (k : Nat) (s : Statement) : Statement :=
  { s with line := s.line + k, text := Text.trim (Text.lineAt lines (s.line + k)) }

section Moved
variable {lines lines' : List String} {rows rows' : List LineTokens} {ss : List Statement} {k : Nat}

/-- A line says the same wherever it stands. -/
theorem row_moved {tokens : List Token} {s : Option Statement} (h : Row lines tokens s) :
    Row lines' (tokens.map (Token.below k)) (s.map (moved lines' k)) := by
  cases h with
  | empty => exact .empty
  | @line first rest label body h =>
    have hkinds : ((first :: rest).map (Token.below k)).map (·.kind) =
        (first :: rest).map (·.kind) := by
      simp
    exact .line (hkinds ▸ h)

theorem Derives.moved (h : Derives lines rows ss)
    (hr : rows'.map (·.ahead) = rows.map fun row => row.ahead.map (Token.below k)) :
    Derives lines' rows' (ss.map (Statement.moved lines' k)) := by
  induction h generalizing rows' with
  | nil =>
    obtain rfl := List.map_eq_nil_iff.1 hr
    exact .nil
  | @cons row s rows ss head tail ih =>
    cases rows' with
    | nil => cases hr
    | cons row' rows' =>
      obtain ⟨hahead, hrest⟩ := List.cons.inj hr
      have hrow : Row lines' row'.ahead (s.map (Statement.moved lines' k)) := by
        rw [show row'.ahead = _ from hahead]
        exact row_moved head
      have hlist : (s.toList ++ ss).map (Statement.moved lines' k) =
          (s.map (Statement.moved lines' k)).toList ++ ss.map (Statement.moved lines' k) := by
        cases s <;> simp
      rw [hlist]
      exact .cons hrow (ih hrest)

end Moved

/-- Statements that are written in a text whose lines end with line feeds, if its lines read as
given. -/
def Written (lines : List String) (text : List Char) (ss : List Statement) : Prop :=
  ∃ segments stop, Segmentation text segments ∧
    Derives lines (rows stop (Segment.tokens {} segments)) ss

section Written
variable {lines lines' lines'' : List String} {front back : List Char} {ss ss' : List Statement}

theorem ofSource_ok_iff {source : String} : ofSource source = .ok ss ↔
    Written (Text.lines source) (Text.foldNewlines source.toList) ss := by
  constructor
  · intro h
    obtain ⟨tokens, ht, hs⟩ := Outcome.bind_eq_ok_iff.1 h
    obtain ⟨segments, hall, rfl⟩ := tokens_of_ofSource ht
    have hseg := Segment.all_eq_iff.1 hall
    let stop : Token := ⟨.textEnd, ({} : Place).after (Segment.joined segments)⟩
    have hstop : stop.kind = .textEnd := rfl
    have hlines := lines_rows (Segment.kind_ne_textEnd hseg {}) hstop
    exact ⟨segments, stop, hseg, (ofTokens_ok_iff hlines).1 hs⟩
  · rintro ⟨segments, stop, hseg, hd⟩
    let stop' : Token := ⟨.textEnd, ({} : Place).after (Segment.joined segments)⟩
    have hstop : stop'.kind = .textEnd := rfl
    have hlines := lines_rows (Segment.kind_ne_textEnd hseg {}) hstop
    have htokens : Token.ofSource source = .ok (Segment.tokens {} segments ++ [stop']) := by
      rw [Token.ofSource, Scan.ofSource, Scan.ofChars, Segment.all_eq_iff.2 hseg]
      rfl
    have hd' := hd.congr (ahead_rows_stop stop' stop (Segment.tokens {} segments))
    exact Outcome.bind_eq_ok_iff.2 ⟨_, htokens, (ofTokens_ok_iff hlines).2 hd'⟩

/-- A line feed at the end of a text begins no statement. -/
theorem Written.of_lineFeed (h : Written lines (front ++ ['\n']) ss) : Written lines front ss := by
  obtain ⟨segments, stop, hseg, hd⟩ := h
  obtain ⟨above, rfl, habove⟩ := hseg.exists_lineEnd
  rw [Segment.tokens_lineEnd habove, rows_lineEnd rfl] at hd
  obtain ⟨ss, rest, rfl, habove', hrest⟩ := hd.exists_append
  have hempty : rest = [] := by
    cases hrest with
    | cons head tail =>
      cases head
      cases tail
      rfl
  rw [hempty, List.append_nil]
  exact ⟨above, _, habove, habove'⟩

/-- Texts with a line feed between them. -/
theorem Written.line (h : Written lines front ss) (h' : Written lines' back ss') :
    Written lines'' (front ++ '\n' :: back)
      (ss.map (moved lines'' 0) ++ ss'.map (moved lines'' (front.count '\n' + 1))) := by
  obtain ⟨above, stop, habove, hd⟩ := h
  obtain ⟨below, stop', hbelow, hd'⟩ := h'
  refine ⟨above ++ Segment.lineEnd :: below, stop', habove.line hbelow, ?_⟩
  rw [Segment.tokens_lineEnd habove, rows_lineEnd rfl]
  refine Derives.append (hd.moved ?_) (hd'.moved ?_)
  · rw [← ahead_rows 0 stop stop, Token.below_zero, List.map_id]
    exact ahead_rows_stop _ stop _
  · exact ahead_rows _ stop' stop' _

/-- The statements of a source text and another one on the next line. -/
theorem ofSource_line {above under : String} (h : ofSource above = .ok ss)
    (h' : ofSource under = .ok ss') : ofSource (above ++ "\n" ++ under) = .ok
      (ss.map (moved (Text.lines (above ++ "\n" ++ under)) 0) ++
        ss'.map (moved (Text.lines (above ++ "\n" ++ under))
          ((Text.foldNewlines (above ++ "\n").toList).count '\n'))) := by
  have htext : (above ++ "\n" ++ under).toList = above.toList ++ '\n' :: under.toList := by simp
  obtain ⟨front, hfront, hbelow⟩ := Text.foldNewlines_below above.toList
  have hcount : (Text.foldNewlines (above ++ "\n").toList).count '\n' = front.count '\n' + 1 := by
    have hline := hbelow []
    rw [String.toList_append, show ("\n" : String).toList = ['\n'] from rfl, hline]
    simp [Text.foldNewlines]
  have hwritten : Written (Text.lines above) front ss := by
    have hw := ofSource_ok_iff.1 h
    rcases hfront with hfront | hfront
    · exact hfront ▸ hw
    · exact Written.of_lineFeed (hfront ▸ hw)
  rw [ofSource_ok_iff, htext, hbelow, hcount]
  exact hwritten.line (ofSource_ok_iff.1 h')

end Written
end MiniRisc.Statement
