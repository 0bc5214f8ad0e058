import MiniRisc.Proofs.Statement.Following
/-! Positions in the tokens of a text while statements are read from them. A line that is read takes
the position behind its end, and a refusal leaves it on the line, so that no position is outside the
tokens and there are no more lines to read than line ends. -/
namespace MiniRisc.Statement

section Positions
variable (lines : List String) (tokens : List Token)

def ofLineAt? (position : Nat) : Except Diagnostic (Option Statement) × Nat :=
  let (result, left) := ofLine? lines (tokens.drop position)
  (result, tokens.length - left.length)

/-- The position after a number of lines have been read, or refused, one after another. -/
def positionAfter : Nat → Nat → Nat
  | 0, position => position
  | calls + 1, position => positionAfter calls (ofLineAt? lines tokens position).2

def TextEndsAt (position : Nat) : Prop := tokens[position]?.map (·.kind) = some .textEnd

instance (position : Nat) : Decidable (TextEndsAt tokens position) :=
  inferInstanceAs (Decidable (_ = _))

/-- The statements from a position on, if they are found by reading a number of lines at most. -/
def ofTokensWithin : Nat → Nat → Option (Except Diagnostic (List Statement))
  | 0, position => if TextEndsAt tokens position then some (.ok []) else none
  | calls + 1, position =>
    if TextEndsAt tokens position then some (.ok [])
    else
      match ofLineAt? lines tokens position with
      | (.error d, _) => some (.error d)
      | (.ok s, behind) => (ofTokensWithin calls behind).map (·.map (s.toList ++ ·))

def lineEndFrom (position : Nat) : Nat :=
  position + (tokens.drop position).findIdx (·.kind.endsLine)

def positionBehind (stop : Nat) : Nat :=
  if tokens[stop]?.map (·.kind) = some .lineEnd then stop + 1 else stop

/-- How a line is read from a position: where the reading comes to, and that the tokens from there
on are left. A walk over the tokens comes to the same position. -/
structure LineRead (position : Nat) (result : Except Diagnostic (Option Statement))
    (behind : Nat) : Prop where
  inside : behind < tokens.length
  accepted (s : Option Statement) : result = .ok s →
    behind = positionBehind tokens (lineEndFrom tokens position) ∧
      (behind = position ↔ TextEndsAt tokens position)
  refused (d : Diagnostic) : result = .error d →
    position ≤ behind ∧ behind ≤ lineEndFrom tokens position
  left : ofLine? lines (tokens.drop position) = (result, tokens.drop behind)
  walk : (Walking.statement? lines tokens).run position =
    match result with
    | .ok s => .ok (s.map flat) behind
    | .error d => .error (.refused d) behind

end Positions

section Rows
variable {lines : List String} {tokens rest : List Token} {row : LineTokens} {position : Nat}

/-- Up to the first token that ends a line the tokens are a line. -/
theorem exists_closed (h : ∃ t ∈ tokens, t.kind.endsLine = true) :
    ∃ (row : LineTokens) (rest : List Token),
      row.Closed ∧ tokens = row.ahead ++ row.stop :: rest := by
  induction tokens with
  | nil => simp at h
  | cons t tokens ih =>
    by_cases ht : t.kind.endsLine = true
    · exact ⟨⟨[], t⟩, tokens, ⟨by simp, ht⟩, rfl⟩
    · obtain ⟨u, hu, he⟩ := h
      have hne : u ≠ t := fun e => ht (e ▸ he)
      obtain ⟨row, rest, hc, rfl⟩ := ih ⟨u, (List.mem_cons.1 hu).resolve_left hne, he⟩
      exact ⟨{ row with ahead := t :: row.ahead }, rest, hc.cons (Bool.eq_false_iff.2 ht), rfl⟩

private theorem findIdx_of_closed (hc : row.Closed) (rest : List Token) :
    (row.ahead ++ row.stop :: rest).findIdx (·.kind.endsLine) = row.ahead.length := by
  obtain ⟨ahead, stop⟩ := row
  induction ahead with
  | nil => simp [List.findIdx_cons, show stop.kind.endsLine = true from hc.stop]
  | cons t ahead ih =>
    rw [List.cons_append, List.findIdx_cons, hc.inner t List.mem_cons_self, cond_false,
      ih hc.behind, List.length_cons]

structure RowAt (tokens : List Token) (position : Nat) (row : LineTokens) (rest : List Token) :
    Prop where
  closed : row.Closed
  drop : tokens.drop position = row.ahead ++ row.stop :: rest
  more : row.stop.kind = .lineEnd → rest ≠ []

private theorem exists_rowAt (hend : tokens.getLast?.map (·.kind) = some .textEnd)
    (hp : position < tokens.length) : ∃ row rest, RowAt tokens position row rest := by
  obtain ⟨stop, hlast, hs⟩ := Option.map_eq_some_iff.1 hend
  have hdrop : (tokens.drop position).getLast? = some stop := by
    rw [List.getLast?_drop, if_neg (by omega), hlast]
  have hmem : stop ∈ tokens.drop position := List.mem_of_getLast? hdrop
  obtain ⟨row, rest, hc, hrow⟩ := exists_closed ⟨stop, hmem, by rw [hs]; rfl⟩
  refine ⟨row, rest, hc, hrow, ?_⟩
  rintro he rfl
  rw [hrow, List.getLast?_concat] at hdrop
  rw [Option.some.inj hdrop, hs] at he
  cases he

namespace RowAt
variable (h : RowAt tokens position row rest)
include h

theorem split : tokens = tokens.take position ++ (row.ahead ++ row.stop :: rest) := by
  rw [← h.drop, List.take_append_drop]

theorem length_take : (tokens.take position).length = position := by
  rw [List.length_take]
  have hlength := congrArg List.length h.drop
  simp only [List.length_drop, List.length_append, List.length_cons] at hlength
  omega

theorem length : tokens.length = position + row.ahead.length + 1 + rest.length := by
  have hlength := congrArg List.length h.split
  simp only [List.length_append, List.length_cons, h.length_take] at hlength
  omega

private theorem lineEndFrom_eq : lineEndFrom tokens position = position + row.ahead.length := by
  rw [lineEndFrom, h.drop, findIdx_of_closed h.closed]

private theorem getElem?_stop : tokens[position + row.ahead.length]? = some row.stop := by
  rw [← List.getElem?_drop, h.drop, List.getElem?_append_right (Nat.le_refl _), Nat.sub_self]
  rfl

private theorem positionBehind_eq :
    positionBehind tokens (lineEndFrom tokens position) = position + Walking.lengthOf row := by
  rw [positionBehind, h.lineEndFrom_eq, h.getElem?_stop, Option.map_some, Walking.lengthOf]
  by_cases hs : row.stop.kind = .lineEnd
  · rw [if_pos (congrArg some hs), if_pos hs, Nat.add_assoc]
  · rw [if_neg fun e => hs (Option.some.inj e), if_neg hs, Nat.add_zero]

private theorem textEndsAt_iff :
    TextEndsAt tokens position ↔ row.ahead = [] ∧ row.stop.kind = .textEnd := by
  rw [TextEndsAt, ← Nat.add_zero position, ← List.getElem?_drop, h.drop]
  obtain ⟨_ | ⟨t, ahead⟩, stop⟩ := row
  · simp
  · have hopen : t.kind ≠ .textEnd := h.closed.kind_ne List.mem_cons_self rfl
    simpa using hopen

/-- The tokens behind the line are those from the position behind it on. -/
theorem behind_eq_drop :
    behind (row.stop :: rest) = tokens.drop (position + Walking.lengthOf row) := by
  rw [← List.drop_drop, h.drop, Walking.lengthOf]
  by_cases hs : row.stop.kind = .lineEnd
  · simp [behind, hs, List.drop_append]
  · have htext := h.closed.stop_cases.resolve_left hs
    simp [behind, htext]

private theorem behind_lt : position + Walking.lengthOf row < tokens.length := by
  rw [h.length, Walking.lengthOf]
  split
  · have hrest := List.length_pos_iff.2 (h.more ‹_›)
    omega
  · omega

end RowAt

private theorem ofLineAt?_of_left {behind : Nat} {result : Except Diagnostic (Option Statement)}
    (h : ofLine? lines (tokens.drop position) = (result, tokens.drop behind))
    (hb : behind ≤ tokens.length) : ofLineAt? lines tokens position = (result, behind) := by
  rw [ofLineAt?, h]
  simp only [List.length_drop, Prod.mk.injEq, true_and]
  omega

/-- Reading a line that is accepted takes all of its tokens and its end. -/
theorem RowAt.lineRead_ok (h : RowAt tokens position row rest) {s : Option Statement}
    {line : LineTokens} (hr : (Taking.statement? lines).run row = .ok s line) :
    LineRead lines tokens position (.ok s) (position + Walking.lengthOf row) where
  inside := h.behind_lt
  accepted _ _ := by
    refine ⟨h.positionBehind_eq.symm, ?_⟩
    rw [h.textEndsAt_iff, Walking.lengthOf, ← List.length_eq_zero_iff]
    rcases h.closed.stop_cases with hs | hs <;> simp [hs]
  refused _ hd := by cases hd
  left := by
    rw [h.drop, ofLine?_eq_of_closed lines h.closed, hr, ← h.behind_eq_drop]
  walk := by
    have hwalk := Walking.statement?_endsAt lines tokens h.closed _ rest h.split h.more
    rwa [hr, h.length_take] at hwalk

/-- A refusal leaves the tokens that have been taken, and those only. -/
theorem RowAt.lineRead_error {taken ahead : List Token} {stop : Token} {refusal : Refusal}
    (h : RowAt tokens position ⟨taken ++ ahead, stop⟩ rest)
    (hr : (Taking.statement? lines).run ⟨taken ++ ahead, stop⟩ = .error refusal ⟨ahead, stop⟩) :
    LineRead lines tokens position (.error (.grammatical refusal.fault refusal.token
      (Text.lineAt lines refusal.token.place.line))) (position + taken.length) where
  inside := by
    have hlength := h.length
    simp only [List.length_append] at hlength
    omega
  accepted _ hs := by cases hs
  refused _ _ := by
    rw [h.lineEndFrom_eq, List.length_append]
    omega
  left := by
    have hline := ofLine?_eq_of_closed lines h.closed rest
    rw [hr] at hline
    rw [h.drop, hline, ← List.drop_drop, h.drop, List.append_assoc, List.drop_left]
  walk := by
    have hwalk := Walking.statement?_endsAt lines tokens h.closed _ rest h.split h.more
    rw [hr] at hwalk
    obtain ⟨taken', hl, hwalk⟩ := hwalk
    obtain rfl := List.append_cancel_right (LineTokens.mk.inj hl).1
    rwa [List.length_append, h.length_take] at hwalk

private theorem RowAt.lineRead (h : RowAt tokens position row rest) :
    LineRead lines tokens position (ofLineAt? lines tokens position).1
      (ofLineAt? lines tokens position).2 := by
  cases hr : (Taking.statement? lines).run row with
  | ok s line =>
    have hread := h.lineRead_ok hr
    rwa [ofLineAt?_of_left hread.left hread.inside.le]
  | error refusal line =>
    have hwalk := Walking.statement?_endsAt lines tokens h.closed _ rest h.split h.more
    rw [hr] at hwalk
    obtain ⟨taken, rfl, -⟩ := hwalk
    have hread := h.lineRead_error hr
    rwa [ofLineAt?_of_left hread.left hread.inside.le]

/-- The statements from a line on are that of the line and those behind it. -/
theorem RowAt.ofTokens_drop (h : RowAt tokens position row rest)
    (hp : ¬ TextEndsAt tokens position) :
    ofTokens lines (tokens.drop position) =
      match (ofLineAt? lines tokens position).1 with
      | .error d => .error d
      | .ok s => (ofTokens lines (tokens.drop (position + Walking.lengthOf row))).map
          (s.toList ++ ·) := by
  obtain ⟨t, more, hdrop⟩ : ∃ t more, tokens.drop position = t :: more :=
    List.exists_cons_of_ne_nil (by simp [h.drop])
  have hat : tokens[position]? = some t := by
    rw [← Nat.add_zero position, ← List.getElem?_drop, hdrop]
    rfl
  have ht : t.kind ≠ .textEnd := fun hk => hp (by rw [TextEndsAt, hat, Option.map_some, hk])
  have hbehind : behind (splitLine (t :: more)).2 =
      tokens.drop (position + Walking.lengthOf row) := by
    rw [← hdrop, h.drop, splitLine_of_closed h.closed, h.behind_eq_drop]
  have hcons : ofTokens lines (t :: more) = _ := ofTokens_cons ht
  rw [hbehind, ← hdrop, h.lineRead.left] at hcons
  exact hcons

private theorem ofTokensWithin_of_end (hp : TextEndsAt tokens position) (calls : Nat) :
    ofTokensWithin lines tokens calls position = some (ofTokens lines (tokens.drop position)) := by
  obtain ⟨stop, hat, hs⟩ := Option.map_eq_some_iff.1 hp
  obtain ⟨hlt, rfl⟩ := List.getElem?_eq_some_iff.1 hat
  have hwithin : ofTokensWithin lines tokens calls position = some (.ok []) := by
    cases calls <;> exact if_pos hp
  rw [hwithin, List.drop_eq_getElem_cons hlt, ofTokens, dif_pos hs]

/-- A line that ends before the text takes one of the line ends that are left. -/
theorem RowAt.countP_drop (h : RowAt tokens position row rest) (hs : row.stop.kind = .lineEnd) :
    (tokens.drop position).countP (·.kind = .lineEnd) =
      (tokens.drop (position + Walking.lengthOf row)).countP (·.kind = .lineEnd) + 1 := by
  have hopen : row.ahead.countP (·.kind = .lineEnd) = 0 := by
    refine List.countP_eq_zero.2 fun t ht hk => ?_
    exact h.closed.kind_ne ht rfl (of_decide_eq_true hk)
  rw [← h.behind_eq_drop, h.drop, List.countP_append, hopen, List.countP_cons, behind]
  simp [hs]

/-- As many lines as there are line ends, and one more, are enough to read. -/
theorem ofTokensWithin_of_countP_lt (hend : tokens.getLast?.map (·.kind) = some .textEnd)
    (hp : position < tokens.length) {calls : Nat}
    (hcalls : (tokens.drop position).countP (·.kind = .lineEnd) < calls) :
    ofTokensWithin lines tokens calls position = some (ofTokens lines (tokens.drop position)) := by
  induction calls generalizing position with
  | zero => omega
  | succ calls ih =>
    by_cases hat : TextEndsAt tokens position
    · exact ofTokensWithin_of_end hat _
    obtain ⟨row, rest, h⟩ := exists_rowAt hend hp
    have hread : LineRead lines tokens position _ _ := h.lineRead
    rw [ofTokensWithin, if_neg hat, h.ofTokens_drop hat]
    generalize ofLineAt? lines tokens position = read at hread ⊢
    obtain ⟨d | s, behind⟩ := read
    · rfl
    · obtain ⟨hbehind, -⟩ := hread.accepted s rfl
      rw [h.positionBehind_eq] at hbehind
      obtain rfl : behind = position + Walking.lengthOf row := hbehind
      have hrest : ofTokensWithin lines tokens calls (position + Walking.lengthOf row) =
          some (ofTokens lines (tokens.drop (position + Walking.lengthOf row))) := by
        by_cases hs : row.stop.kind = .lineEnd
        · have hcount := h.countP_drop hs
          exact ih hread.inside (by omega)
        · refine ofTokensWithin_of_end ?_ calls
          have htext := h.closed.stop_cases.resolve_left hs
          rw [TextEndsAt, Walking.lengthOf, if_neg hs, Nat.add_zero, h.getElem?_stop,
            Option.map_some, htext]
      dsimp only
      rw [hrest]
      rfl

private theorem positionAfter_lt (lines : List String)
    (hend : tokens.getLast?.map (·.kind) = some .textEnd) (calls : Nat)
    (hp : position < tokens.length) :
    positionAfter lines tokens calls position < tokens.length := by
  induction calls generalizing position with
  | zero => exact hp
  | succ calls ih =>
    obtain ⟨row, rest, h⟩ := exists_rowAt hend hp
    exact ih h.lineRead.inside

/-- Tokens that end with the end of the text are read one line at a time. From any position a line
that is read takes the position behind the first token that ends a line, or to it if the text ends
there, and a refusal leaves it at a token not behind that one; so no reading comes to a position
outside the tokens, whatever has been refused before. All statements are found by reading one line
more than there are line ends at most. -/
theorem lines_consumed (lines : List String) {tokens : List Token}
    (hend : tokens.getLast?.map (·.kind) = some .textEnd) :
    (∀ position < tokens.length,
      LineRead lines tokens position (ofLineAt? lines tokens position).1
        (ofLineAt? lines tokens position).2) ∧
    (∀ position < tokens.length, ∀ calls,
      positionAfter lines tokens calls position < tokens.length) ∧
    ofTokensWithin lines tokens (tokens.countP (·.kind = .lineEnd) + 1) 0 =
      some (ofTokens lines tokens) := by
  refine ⟨fun position hp => ?_, fun position hp calls => positionAfter_lt lines hend calls hp, ?_⟩
  · obtain ⟨row, rest, h⟩ := exists_rowAt hend hp
    exact h.lineRead
  · have hpos : 0 < tokens.length := by
      refine List.length_pos_iff.2 ?_
      rintro rfl
      cases hend
    exact ofTokensWithin_of_countP_lt hend hpos (Nat.lt_succ_self _)

end Rows

def twoCommas : List Token :=
  [⟨.name "add", ⟨1, 1⟩⟩, ⟨.name "r1", ⟨1, 5⟩⟩, ⟨.mark .comma, ⟨1, 7⟩⟩, ⟨.mark .comma, ⟨1, 8⟩⟩,
    ⟨.name "r2", ⟨1, 10⟩⟩, ⟨.lineEnd, ⟨1, 12⟩⟩, ⟨.name "b", ⟨2, 1⟩⟩, ⟨.name "loop", ⟨2, 3⟩⟩,
    ⟨.textEnd, ⟨2, 7⟩⟩]

theorem lines_consumed_twoCommas :
    twoCommas.getLast?.map (·.kind) = some .textEnd ∧
    LineRead ["add r1,, r2", "b loop"] twoCommas 0
      (.error (.grammatical .registerExpected ⟨.mark .comma, ⟨1, 8⟩⟩ "add r1,, r2")) 3 ∧
    positionAfter ["add r1,, r2", "b loop"] twoCommas 5 0 < twoCommas.length ∧
    ofTokensWithin ["add r1,, r2", "b loop"] twoCommas 2 0 =
      some (.error (.grammatical .registerExpected ⟨.mark .comma, ⟨1, 8⟩⟩ "add r1,, r2")) := by
  have h : twoCommas.getLast?.map (·.kind) = some .textEnd := by decide
  have hline : ofLineAt? ["add r1,, r2", "b loop"] twoCommas 0 =
      (.error (.grammatical .registerExpected ⟨.mark .comma, ⟨1, 8⟩⟩ "add r1,, r2"), 3) := by cbv
  have hall : ofTokens ["add r1,, r2", "b loop"] twoCommas =
      .error (.grammatical .registerExpected ⟨.mark .comma, ⟨1, 8⟩⟩ "add r1,, r2") := by cbv
  obtain ⟨hread, hinside, hwithin⟩ := lines_consumed ["add r1,, r2", "b loop"] h
  have hread := hread 0 (by decide)
  rw [hline] at hread
  rw [hall] at hwithin
  exact ⟨h, hread, hinside 0 (by decide) 5, hwithin⟩

end MiniRisc.Statement
