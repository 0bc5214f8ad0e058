import MiniRisc.Proofs.Statement.Paired
/-! Statements of tokens of the same kinds. They say the same wherever the tokens stand, and if the
one tokens are no statements, neither are the others. -/
namespace MiniRisc

private theorem Operands.Paired.eq {shape : Shape} {operands operands' : Operands shape}
    (h : operands.Paired operands' []) : operands' = operands := by
  cases h with
  | three target left h =>
    cases h
    rfl
  | two register h =>
    cases h
    rfl
  | same => rfl

namespace Statement
open Grammar

section Kinds
variable {lines : List String} {tokens tokens' : List Token} {above under : List LineTokens}

/-- Statements say the same where no literal differs. -/
theorem content_of_paired (s s' : Statement) (h : s.Paired s' []) : s'.content = s.content := by
  rw [content, content, h.label]
  cases h with
  | bare label hs hs' => rw [hs, hs']
  | body label hs hs' hb =>
    cases hb with
    | mk op modifier hoperands => rw [hs, hs', hoperands.eq]

/-- Tokens of the same kinds are statements that say the same, or both are refused. -/
theorem ofTokens_alike {lines' : List String} (h : Lines above tokens) (h' : Lines under tokens')
    (hk : OneByOne LineTokens.Paired above under [])
    (hk' : OneByOne LineTokens.Paired under above []) :
    (∃ ss ss', ofTokens lines tokens = .ok ss ∧ ofTokens lines' tokens' = .ok ss' ∧
      ss'.map content = ss.map content) ∨
    ∃ fault fault' token token' text text',
      ofTokens lines tokens = .error (.grammatical fault token text) ∧
      ofTokens lines' tokens' = .error (.grammatical fault' token' text') := by
  rcases ofTokens_cases lines h with ⟨ss, hd, ht⟩ | ⟨_, _, _, _, _, _, fault, token, _, ht⟩
  · obtain ⟨ss', hd', hpaired⟩ := hd.paired lines' hk
    exact .inl ⟨ss, ss', ht, (ofTokens_ok_iff h').2 hd', hpaired.map_eq content_of_paired rfl⟩
  · rcases ofTokens_cases lines' h' with ⟨ss', hd', -⟩ | ⟨_, _, _, _, _, _, fault', token', _, ht'⟩
    · obtain ⟨ss, hd, -⟩ := hd'.paired lines hk'
      cases ht.symm.trans ((ofTokens_ok_iff h).2 hd)
    · exact .inr ⟨fault, fault', token, token', _, _, ht, ht'⟩

end Kinds

section Texts
variable {source source' : String} {tokens tokens' : List Token}

/-- Texts whose tokens are of the same kinds are statements that say the same, or both are
refused. -/
theorem ofSource_alike (h : Token.ofSource source = .ok tokens)
    (h' : Token.ofSource source' = .ok tokens')
    (hk : tokens'.map (·.kind) = tokens.map (·.kind)) :
    (∃ ss ss', ofSource source = .ok ss ∧ ofSource source' = .ok ss' ∧
      ss'.map content = ss.map content) ∨
    ∃ fault fault' token token' text text',
      ofSource source = .error (.grammatical fault token text) ∧
      ofSource source' = .error (.grammatical fault' token' text') := by
  obtain ⟨front, stop, rfl, hlines⟩ := rows_of_ofSource h
  obtain ⟨front', stop', rfl, hlines'⟩ := rows_of_ofSource h'
  rw [List.map_append, List.map_append] at hk
  have hfront : front'.map (·.kind) = front.map (·.kind) := List.append_inj_left' hk rfl
  have hpaired : OneByOne Token.Kind.Paired (front.map (·.kind)) (front.map (·.kind)) [] :=
    .refl .same _
  rw [ofSource, ofSource, h, h']
  exact ofTokens_alike hlines hlines' (paired_rows stop stop' (hfront ▸ hpaired))
    (paired_rows stop' stop (hfront ▸ hpaired))

/-- A text whose tokens are on one line is the statement that they are. -/
theorem ofSource_of_line {kinds : List Token.Kind} {c : Content}
    (h : Token.ofSource source = .ok tokens) (hk : tokens.map (·.kind) = kinds ++ [.textEnd])
    (inner : ∀ kind ∈ kinds, kind.endsLine = false) (hline : Line kinds c.1 c.2) :
    ∃ s, ofSource source = .ok [s] ∧ s.content = c := by
  obtain ⟨front, stop, rfl, hlines⟩ := rows_of_ofSource h
  rw [List.map_append] at hk
  obtain rfl := List.append_inj_left' hk rfl
  have hinner : ∀ t ∈ front, t.kind.endsLine = false := fun t ht =>
    inner t.kind (List.mem_map_of_mem ht)
  rw [rows_of_inner hinner] at hlines
  cases front with
  | nil => exact absurd rfl (Line.kinds_ne_nil hline)
  | cons first rest =>
    let s : Statement :=
      ⟨first.place.line, Text.trim (Text.lineAt (Text.lines source) first.place.line), c.1, c.2⟩
    have hd : Derives (Text.lines source) [⟨first :: rest, stop⟩] [s] :=
      .cons (s := some s) (.line hline) .nil
    rw [ofSource, h]
    exact ⟨s, (ofTokens_ok_iff hlines).2 hd, rfl⟩

end Texts
end Statement
end MiniRisc
