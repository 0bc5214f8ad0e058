import MiniRisc.Proofs.Statement.Row
/-! Statements of a whole text: the grammar derives them from its lines, or else the first line that
it does not derive is refused. -/
namespace MiniRisc.Statement
open Grammar

/-- The lines of tokens: each ends with its line end, and the last with the token given. -/
def rows (stop : Token) : List Token → List LineTokens
  | [] => [⟨[], stop⟩]
  | t :: rest =>
    if t.kind = .lineEnd then ⟨[], t⟩ :: rows stop rest
    else (rows stop rest).modifyHead fun row => { row with ahead := t :: row.ahead }

/-- The statements of lines, one for each that is not empty. -/
inductive Derives (lines : List String) : List LineTokens → List Statement → Prop
  | nil : Derives lines [] []
  | cons {row : LineTokens} {s : Option Statement} {rows : List LineTokens} {ss : List Statement}
      (head : Row lines row.ahead s) (tail : Derives lines rows ss) :
      Derives lines (row :: rows) (s.toList ++ ss)

/-- Lines that make up the tokens of a text. -/
inductive Lines : List LineTokens → List Token → Prop
  | last {row : LineTokens} (closed : row.Closed) (stop : row.stop.kind = .textEnd) :
      Lines [row] (row.ahead ++ [row.stop])
  | cons {row : LineTokens} {rows : List LineTokens} {tokens : List Token} (closed : row.Closed)
      (stop : row.stop.kind = .lineEnd) (rest : Lines rows tokens) :
      Lines (row :: rows) (row.ahead ++ row.stop :: tokens)

section Rows
variable {lines : List String} {row : LineTokens} {tokens : List Token} {t stop : Token}

theorem LineTokens.Closed.cons (h : row.Closed) (ht : t.kind.endsLine = false) :
    LineTokens.Closed { row with ahead := t :: row.ahead } := by
  refine ⟨fun u hu => ?_, h.stop⟩
  rcases List.mem_cons.1 hu with rfl | hu
  · exact ht
  · exact h.inner u hu

private theorem Lines.cons_head {rows : List LineTokens} (h : Lines rows tokens)
    (ht : t.kind.endsLine = false) :
    Lines (rows.modifyHead fun row => { row with ahead := t :: row.ahead }) (t :: tokens) := by
  cases h with
  | last closed stop => exact .last (closed.cons ht) stop
  | cons closed stop rest => exact .cons (closed.cons ht) stop rest

theorem lines_rows (h : ∀ t ∈ tokens, t.kind ≠ .textEnd) (hs : stop.kind = .textEnd) :
    Lines (rows stop tokens) (tokens ++ [stop]) := by
  induction tokens with
  | nil => exact .last ⟨by simp, by rw [hs]; rfl⟩ hs
  | cons t rest ih =>
    have ih := ih fun u hu => h u (List.mem_cons_of_mem t hu)
    rw [rows]
    by_cases ht : t.kind = .lineEnd
    · rw [if_pos ht]
      exact .cons ⟨by simp, by rw [ht]; rfl⟩ ht ih
    · have hend := h t List.mem_cons_self
      rw [if_neg ht]
      exact ih.cons_head (by cases hk : t.kind <;> simp_all [Token.Kind.endsLine])

theorem splitLine_of_closed (hc : row.Closed) (tokens : List Token) :
    splitLine (row.ahead ++ row.stop :: tokens) = (row.ahead, row.stop :: tokens) := by
  have hopen : ∀ t ∈ row.ahead, (!t.kind.endsLine) = true := fun t ht => by simp [hc.inner t ht]
  rw [splitLine, List.takeWhile_append_of_pos hopen, List.dropWhile_append_of_pos hopen]
  simp [hc.stop]

theorem ofLine?_eq_of_closed (lines : List String) (hc : row.Closed) (tokens : List Token) :
    ofLine? lines (row.ahead ++ row.stop :: tokens) =
      match (Taking.statement? lines).run row with
      | .ok s _ => (.ok s, behind (row.stop :: tokens))
      | .error refusal line => (.error (.grammatical refusal.fault refusal.token
          (Text.lineAt lines refusal.token.place.line)), line.ahead ++ row.stop :: tokens) := by
  rw [ofLine?, splitLine_of_closed hc]
  rfl

theorem ofLine?_of_closed (hc : row.Closed) (tokens : List Token) :
    (ofLine? lines (row.ahead ++ row.stop :: tokens)).1 =
      match (Taking.statement? lines).run row with
      | .ok s _ => .ok s
      | .error refusal _ => .error (.grammatical refusal.fault refusal.token
          (Text.lineAt lines refusal.token.place.line)) := by
  rw [ofLine?_eq_of_closed lines hc]
  cases (Taking.statement? lines).run row <;> rfl

/-- The statement of the first line, unless the text ends there, and then the others. -/
theorem ofTokens_cons (ht : t.kind ≠ .textEnd) : ofTokens lines (t :: tokens) =
    match (ofLine? lines (t :: tokens)).1 with
    | .error d => .error d
    | .ok s => (ofTokens lines (behind (splitLine (t :: tokens)).2)).map (s.toList ++ ·) := by
  rw [ofTokens, dif_neg ht]
  cases (ofLine? lines (t :: tokens)).1 with
  | error d => rfl
  | ok s => cases s <;> cases ofTokens lines (behind (splitLine (t :: tokens)).2) <;> rfl

theorem ofTokens_append (hc : row.Closed) (hs : row.stop.kind = .lineEnd) (tokens : List Token) :
    ofTokens lines (row.ahead ++ row.stop :: tokens) =
      match (ofLine? lines (row.ahead ++ row.stop :: tokens)).1 with
      | .error d => .error d
      | .ok s => (ofTokens lines tokens).map (s.toList ++ ·) := by
  have hsplit := splitLine_of_closed hc tokens
  have hbehind : behind (row.stop :: tokens) = tokens := by simp [behind, hs]
  obtain ⟨t, rest, he, ht⟩ : ∃ t rest, row.ahead ++ row.stop :: tokens = t :: rest ∧
      t.kind ≠ .textEnd := by
    obtain ⟨ahead, stop⟩ := row
    cases ahead with
    | nil => exact ⟨stop, tokens, rfl, by rw [show stop.kind = _ from hs]; simp⟩
    | cons t ahead => exact ⟨t, _, rfl, hc.kind_ne List.mem_cons_self rfl⟩
  rw [he] at hsplit ⊢
  rw [ofTokens_cons ht, hsplit, hbehind]

theorem ofTokens_last (hc : row.Closed) (hs : row.stop.kind = .textEnd) :
    ofTokens lines (row.ahead ++ [row.stop]) =
      match (ofLine? lines (row.ahead ++ [row.stop])).1 with
      | .error d => .error d
      | .ok s => .ok s.toList := by
  have hend : ofTokens lines [row.stop] = .ok [] := by rw [ofTokens, dif_pos hs]
  have hsplit := splitLine_of_closed hc []
  obtain ⟨_ | ⟨t, ahead⟩, stop⟩ := row
  · have hline : (ofLine? lines ([] ++ [stop])).1 = .ok none := by
      rw [show [] ++ [stop] = (LineTokens.mk [] stop).ahead ++ [stop] from rfl,
        ofLine?_of_closed hc, Taking.run_statement?_of_empty hc.stop]
    rw [hline]
    exact hend
  · have ht : t.kind ≠ .textEnd := hc.kind_ne List.mem_cons_self rfl
    have hbehind : behind [stop] = [stop] := by simp [behind, show stop.kind = _ from hs]
    rw [List.cons_append] at hsplit ⊢
    rw [ofTokens, dif_neg ht, hsplit]
    dsimp only
    rw [hbehind, hend]
    cases (ofLine? lines (t :: (ahead ++ [stop]))).1 with
    | error d => rfl
    | ok s => cases s <;> rfl

/-- The grammar derives one statement of a line at most. -/
theorem row_unique (hc : row.Closed) {s s' : Option Statement} (h : Row lines row.ahead s)
    (h' : Row lines row.ahead s') : s = s' := by
  have hr := (Taking.statement?_reads lines).complete hc h
  rw [(Taking.statement?_reads lines).complete hc h'] at hr
  cases hr
  rfl

/-- A line is read as the grammar derives it, or one of its tokens is refused. -/
theorem row_cases (lines : List String) (hc : row.Closed) (tokens : List Token) :
    (∃ s, Row lines row.ahead s ∧
      (ofLine? lines (row.ahead ++ row.stop :: tokens)).1 = .ok s) ∨
    (¬ ∃ s, Row lines row.ahead s) ∧ ∃ fault token, token ∈ row.ahead ++ [row.stop] ∧
      (ofLine? lines (row.ahead ++ row.stop :: tokens)).1 = .error
        (.grammatical fault token (Text.lineAt lines token.place.line)) := by
  rw [ofLine?_of_closed hc]
  cases hr : (Taking.statement? lines).run row with
  | ok s behind => exact .inl ⟨s, (Taking.statement?_reads lines).sound hc hr, rfl⟩
  | error refusal behind =>
    refine .inr ⟨?_, refusal.fault, refusal.token,
      (Taking.statement?_reads lines).refusal hc hr, rfl⟩
    rintro ⟨s, hs⟩
    cases ((Taking.statement?_reads lines).complete hc hs).symm.trans hr

/-- Statements are read as the grammar derives them, or a token is refused on the first line that it
does not derive. -/
theorem ofTokens_cases (lines : List String) {rows : List LineTokens} (h : Lines rows tokens) :
    (∃ ss, Derives lines rows ss ∧ ofTokens lines tokens = .ok ss) ∨
    ∃ front row back, rows = front ++ row :: back ∧ (∀ r ∈ front, ∃ s, Row lines r.ahead s) ∧
      (¬ ∃ s, Row lines row.ahead s) ∧ ∃ fault token, token ∈ row.ahead ++ [row.stop] ∧
        ofTokens lines tokens =
          .error (.grammatical fault token (Text.lineAt lines token.place.line)) := by
  induction h with
  | last hc hs =>
    rename_i row
    rw [ofTokens_last hc hs]
    rcases row_cases lines hc [] with ⟨s, hrow, hl⟩ | ⟨hn, fault, token, hm, hl⟩
    · rw [hl]
      exact .inl ⟨s.toList, List.append_nil s.toList ▸ .cons hrow .nil, rfl⟩
    · rw [hl]
      exact .inr ⟨[], row, [], rfl, by simp, hn, fault, token, hm, rfl⟩
  | cons hc hs hrest ih =>
    rename_i row rows tokens
    rw [ofTokens_append hc hs]
    rcases row_cases lines hc tokens with ⟨s, hrow, hl⟩ | ⟨hn, fault, token, hm, hl⟩
    · rw [hl]
      rcases ih with ⟨ss, hd, ht⟩ | ⟨front, r, back, rfl, hf, hn, fault, token, hm, ht⟩
      · exact .inl ⟨s.toList ++ ss, .cons hrow hd, by simp [ht, Except.map]⟩
      · refine .inr ⟨row :: front, r, back, rfl, ?_, hn, fault, token, hm, by simp [ht, Except.map]⟩
        intro u hu
        rcases List.mem_cons.1 hu with rfl | hu
        · exact ⟨s, hrow⟩
        · exact hf u hu
    · rw [hl]
      exact .inr ⟨[], row, rows, rfl, by simp, hn, fault, token, hm, rfl⟩

theorem Derives.exists_row {rows : List LineTokens} {ss : List Statement}
    (h : Derives lines rows ss) : ∀ row ∈ rows, ∃ s, Row lines row.ahead s := by
  induction h with
  | nil => simp
  | cons head tail ih =>
    intro row hr
    rcases List.mem_cons.1 hr with rfl | hr
    · exact ⟨_, head⟩
    · exact ih row hr

theorem Derives.unique {rows : List LineTokens} {ss ss' : List Statement}
    (h : Derives lines rows ss) (h' : Derives lines rows ss') (hc : ∀ row ∈ rows, row.Closed) :
    ss = ss' := by
  induction h generalizing ss' with
  | nil =>
    cases h'
    rfl
  | cons head tail ih =>
    cases h' with
    | cons head' tail' =>
      rw [row_unique (hc _ List.mem_cons_self) head head',
        ih tail' fun row hr => hc row (List.mem_cons_of_mem _ hr)]

theorem Lines.closed {rows : List LineTokens} (h : Lines rows tokens) :
    ∀ row ∈ rows, row.Closed := by
  induction h with
  | last closed =>
    intro row hr
    exact List.mem_singleton.1 hr ▸ closed
  | cons closed _ _ ih =>
    intro row hr
    rcases List.mem_cons.1 hr with rfl | hr
    · exact closed
    · exact ih row hr

end Rows
end MiniRisc.Statement
