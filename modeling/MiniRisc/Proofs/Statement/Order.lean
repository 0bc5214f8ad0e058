import MiniRisc.Proofs.Statement.Located
import MiniRisc.Proofs.Token.Order
/-! Statements in the order of a text. A statement ends with its line end or the text, so those
behind it begin on later lines, and its own line is the one that its first word is on. -/
namespace MiniRisc.Statement
open Grammar

def FirstWord (s : Statement) (word : String) : Prop :=
  s.label = some word ∨
    s.label = none ∧ ∃ b, s.body = some b ∧ word = b.op.mnemonic ++ b.modifier.suffix

/-- A statement of one of some rows, with the number and the trimmed text of the line of the source
text that the first token of the row is on. That token is the first word of the statement. -/
inductive Mapped (source : String) (rows : List LineTokens) (s : Statement) : Prop
  | mk {row : LineTokens} {first : Token} {rest : List Token} {word : String}
      {front back : List Char} (mem : row ∈ rows) (ahead : row.ahead = first :: rest)
      (derived : Row (Text.lines source) row.ahead (some s)) (kind : first.kind = .name word)
      (begins : s.FirstWord word)
      (split : Text.foldNewlines source.toList = front ++ word.toList ++ back)
      (place : first.place = .behind front) (line : s.line = 1 + front.count '\n')
      (text : s.text = Text.trim (Text.lineAt (Text.lines source) s.line))

section Rows
variable {lines : List String} {rows : List LineTokens} {tokens : List Token} {s : Statement}
  {ss : List Statement}

/-- The tokens of a row are on earlier lines than those of the rows behind it. -/
theorem Lines.ordered (h : Lines rows tokens) (ht : tokens.Pairwise Token.Before) :
    rows.Pairwise fun row row' =>
      ∀ t ∈ row.ahead, ∀ u ∈ row'.ahead, t.place.line < u.place.line := by
  induction h with
  | last => exact List.pairwise_singleton _ _
  | @cons row rows tokens closed stop rest ih =>
    obtain ⟨-, htail, hcross⟩ := List.pairwise_append.1 ht
    obtain ⟨hstop, htokens⟩ := List.pairwise_cons.1 htail
    refine List.pairwise_cons.2 ⟨fun row' hr t ht u hu => ?_, ih htokens⟩
    have hu := rest.mem row' hr u (List.mem_append_left _ hu)
    exact Int.lt_of_le_of_lt (hcross t ht row.stop List.mem_cons_self).line
      ((hstop u hu).lineEnd stop)

theorem Derives.ordered (h : Derives lines rows ss)
    (hr : rows.Pairwise fun row row' =>
      ∀ t ∈ row.ahead, ∀ u ∈ row'.ahead, t.place.line < u.place.line) :
    ss.Pairwise (·.line < ·.line) := by
  induction h with
  | nil => exact .nil
  | @cons row s rows ss head tail ih =>
    obtain ⟨hrow, hrows⟩ := List.pairwise_cons.1 hr
    cases s with
    | none => exact ih hrows
    | some s =>
      refine List.pairwise_cons.2 ⟨fun u hu => ?_, ih hrows⟩
      obtain ⟨first, rest, hfirst, hline, -⟩ := beginsAt_of_row head
      obtain ⟨row', hr', first', rest', hfirst', hline', -⟩ := tail.beginsAt u hu
      rw [hline, hline']
      exact hrow row' hr' first (by simp [hfirst]) first' (by simp [hfirst'])

/-- The first token of a row is the first word of its statement. -/
theorem firstWord_of_row (h : Row lines tokens (some s)) :
    ∃ first rest word, tokens = first :: rest ∧ first.kind = .name word ∧ s.FirstWord word := by
  cases h with
  | @line first rest label body h =>
    generalize hkinds : (first :: rest).map (·.kind) = kinds at h
    have hfirst {kind : Token.Kind} {others : List Token.Kind} (hk : kinds = kind :: others) :
        first.kind = kind := (List.cons.inj (hkinds.trans hk)).1
    cases h with
    | label => exact ⟨first, rest, _, rfl, hfirst rfl, .inl rfl⟩
    | both => exact ⟨first, rest, _, rfl, hfirst rfl, .inl rfl⟩
    | instruction hb =>
      cases hb with
      | mk => exact ⟨first, rest, _, rfl, hfirst rfl, .inr ⟨rfl, _, rfl, rfl⟩⟩

end Rows

section Source
variable {source : String} {tokens : List Token} {rows : List LineTokens} {s : Statement}
  {ss : List Statement}

private theorem Mapped.of_row {row : LineTokens} (ht : Token.ofSource source = .ok tokens)
    (hl : Lines rows tokens) (hr : row ∈ rows)
    (h : Row (Text.lines source) row.ahead (some s)) : s.Mapped source rows := by
  obtain ⟨first, rest, word, hahead, hkind, hword⟩ := firstWord_of_row h
  have hmem : first ∈ tokens := hl.mem row hr first (by simp [hahead])
  obtain ⟨front, back, hsplit, hplace⟩ := exists_written ht hmem hkind
  obtain ⟨first', rest', hahead', hline, htext⟩ := beginsAt_of_row h
  obtain ⟨rfl, rfl⟩ := List.cons.inj (hahead.symm.trans hahead')
  refine .mk hr hahead h hkind hword hsplit hplace ?_ ?_
  · rw [hline, hplace, Place.behind]
  · rw [htext, hline]

/-- The statements of a text are in the order of their lines, and every one has the line of its
first word. -/
theorem ofSource_mapped (h : ofSource source = .ok ss) : ∃ tokens rows,
    Token.ofSource source = .ok tokens ∧ Lines rows tokens ∧
      Derives (Text.lines source) rows ss ∧ (∀ s ∈ ss, s.Mapped source rows) ∧
      ss.Pairwise (·.line < ·.line) := by
  obtain ⟨tokens, ht, hss⟩ := Outcome.bind_eq_ok_iff.1 h
  obtain ⟨rows, hlines⟩ := lines_of_ofSource ht
  have hderives := (ofTokens_ok_iff hlines).1 hss
  refine ⟨tokens, rows, ht, hlines, hderives, fun s hs => ?_,
    hderives.ordered (hlines.ordered (before_of_ofSource ht))⟩
  obtain ⟨row, hr, hrow⟩ := hderives.mem s hs
  exact .of_row ht hlines hr hrow

end Source
end MiniRisc.Statement
