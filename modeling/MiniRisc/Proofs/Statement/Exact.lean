import MiniRisc.Proofs.Statement.Following
/-! The statements of a text are those that the grammar derives from its lines. -/
namespace MiniRisc.Statement
open Grammar

/-- The tokens of a text, cut at its line ends, are statements if the grammar derives every line,
and then they are one for each line that is not empty, as it is derived. Otherwise a token is
refused on the first line that is not derived, or that which ends it. A walk over the tokens by
position comes to the same statements or the same refusal, and to nothing else. -/
theorem ofTokens_exact (lines : List String) {tokens : List Token} {stop : Token}
    (h : ∀ t ∈ tokens, t.kind ≠ .textEnd) (hs : stop.kind = .textEnd) :
    Lines (rows stop tokens) (tokens ++ [stop]) ∧
    ((∃ ss, ofTokens lines (tokens ++ [stop]) = .ok ss) ↔
      ∀ row ∈ rows stop tokens, ∃ s, Row lines row.ahead s) ∧
    (∀ ss, ofTokens lines (tokens ++ [stop]) = .ok ss ↔ Derives lines (rows stop tokens) ss) ∧
    (∀ d, ofTokens lines (tokens ++ [stop]) = .error d →
      ∃ front row back, rows stop tokens = front ++ row :: back ∧
        (∀ r ∈ front, ∃ s, Row lines r.ahead s) ∧ (¬ ∃ s, Row lines row.ahead s) ∧
        ∃ fault, ∃ token ∈ row.ahead ++ [row.stop],
          d = .grammatical fault token (Text.lineAt lines token.place.line)) ∧
    Walking.statements lines (tokens ++ [stop]) 0 =
      ((ofTokens lines (tokens ++ [stop])).map (·.map flat)).mapError .refused := by
  have hl := lines_rows h hs
  refine ⟨hl, ?_, fun ss => ?_, fun d hd => ?_, Walking.statements_of_lines hl [] rfl⟩
  · rcases ofTokens_cases lines hl with
      ⟨ss, hd, ht⟩ | ⟨front, row, back, hr, -, hn, fault, token, -, ht⟩
    · exact ⟨fun _ => hd.exists_row, fun _ => ⟨ss, ht⟩⟩
    · rw [ht, hr]
      exact ⟨fun ⟨_, he⟩ => (nomatch he), fun hall => absurd (hall row (by simp)) hn⟩
  · rcases ofTokens_cases lines hl with
      ⟨ss', hd, ht⟩ | ⟨front, row, back, hr, -, hn, fault, token, -, ht⟩
    · rw [ht]
      exact ⟨fun he => Except.ok.inj he ▸ hd, fun hd' => congrArg _ (hd.unique hd' hl.closed)⟩
    · rw [ht, hr]
      exact ⟨(nomatch ·), fun hd => absurd (hd.exists_row row (by simp)) hn⟩
  · rcases ofTokens_cases lines hl with
      ⟨ss, -, ht⟩ | ⟨front, row, back, hr, hf, hn, fault, token, hm, ht⟩
    · cases ht.symm.trans hd
    · have he := Except.error.inj (ht.symm.trans hd)
      exact ⟨front, row, back, hr, hf, hn, fault, token, hm, he.symm⟩

def countup : List Token :=
  [⟨.name "loop", ⟨1, 1⟩⟩, ⟨.mark .colon, ⟨1, 5⟩⟩, ⟨.name "addu", ⟨1, 7⟩⟩, ⟨.name "sp", ⟨1, 12⟩⟩,
    ⟨.mark .comma, ⟨1, 14⟩⟩, ⟨.name "sp", ⟨1, 16⟩⟩, ⟨.mark .comma, ⟨1, 18⟩⟩, ⟨.integer 1, ⟨1, 20⟩⟩,
    ⟨.lineEnd, ⟨1, 21⟩⟩, ⟨.lineEnd, ⟨2, 1⟩⟩, ⟨.name "b", ⟨3, 1⟩⟩, ⟨.name "loop", ⟨3, 3⟩⟩]

theorem ofTokens_exact_countup :
    (∀ t ∈ countup, t.kind ≠ .textEnd) ∧ (⟨.textEnd, ⟨3, 7⟩⟩ : Token).kind = .textEnd ∧
    Derives ["loop: addu sp, sp, 1", "", "b loop"] (rows ⟨.textEnd, ⟨3, 7⟩⟩ countup)
      [⟨1, "loop: addu sp, sp, 1", some "loop",
          some ⟨.add, .unsigned, .three 14 14 (.immediate 1)⟩⟩,
        ⟨3, "b loop", none, some ⟨.b, .signed, .branch "loop"⟩⟩] := by
  have h : ∀ t ∈ countup, t.kind ≠ .textEnd := by decide
  refine ⟨h, rfl, ((ofTokens_exact _ h rfl).2.2.1 _).1 ?_⟩
  cbv

end MiniRisc.Statement
