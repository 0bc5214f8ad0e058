import MiniRisc.Proofs.Token.Append
import MiniRisc.Proofs.Token.Malformed
/-! Tokens and faults of a source text on its lines: every place that is told is the place of a
character of the text, or of the end of a line. -/
namespace MiniRisc

section Place
variable {source : String} {front back : List Char} {c : Char}

private theorem length_lines (source : String) :
    (Text.lines source).length = (Text.foldNewlines source.toList).count '\n' + 1 := by
  rw [Text.lines, List.length_map, Text.length_splitLines]

/-- The place behind a part of a text is on one of its lines. -/
theorem line_behind (h : Text.foldNewlines source.toList = front ++ back) :
    1 ≤ (Place.behind front).line ∧ (Place.behind front).line ≤ (Text.lines source).length := by
  rw [length_lines, h, List.count_append, Place.behind]
  dsimp only
  omega

/-- The character behind a part of a text is on its line, at its column. -/
theorem char_behind (h : Text.foldNewlines source.toList = front ++ c :: back) (hc : c ≠ '\n') :
    let p := Place.behind front
    1 ≤ p.column ∧ p.column ≤ (Text.lineAt (Text.lines source) p.line).length ∧
      (Text.lineAt (Text.lines source) p.line).toList[(p.column - 1).toNat]? = some c := by
  have hline := lineAt_behind h
  rw [List.takeWhile_cons, if_pos (by simpa using hc)] at hline
  have hcolumn : (Place.behind front).column = 1 + (Text.lastLine front).length := rfl
  have hindex : ((Place.behind front).column - 1).toNat = (Text.lastLine front).length := by omega
  refine ⟨by omega, ?_, ?_⟩
  · rw [← String.length_toList, hline, List.length_append, List.length_cons]
    omega
  · rw [hline, hindex, List.getElem?_append_right (Nat.le_refl _), Nat.sub_self]
    rfl

end Place

/-- A token is on a line: the characters that make it begin at its column, or the line has ended
there if the token is an end. -/
def Token.StandsOn (line : String) (t : Token) : Prop :=
  if t.kind.endsLine then t.place.column = line.length + 1
  else 1 ≤ t.place.column ∧ ∃ text behind, Lexeme.Construct behind (.token t.kind) text ∧
    line.toList.drop (t.place.column - 1).toNat = text ++ behind.takeWhile (· ≠ '\n')

section Tokens
variable {source : String} {text : List Char} {tokens : List Token} {t : Token}
  {segments : List Segment}

/-- Every token is a construct at its place. -/
theorem exists_segment (p : Place) (segments : List Segment) (ht : t ∈ Segment.tokens p segments) :
    ∃ front s back, segments = front ++ s :: back ∧ s.kind? = some t.kind ∧
      t.place = p.after (Segment.joined front) := by
  induction segments generalizing p with
  | nil => cases ht
  | cons s rest ih =>
    rw [Segment.tokens, List.mem_append] at ht
    rcases ht with ht | ht
    · have ht := Option.mem_toList.1 ht
      refine ⟨[], s, rest, rfl, ?_, ?_⟩
      · rw [← s.kind_token? p, ht]
        rfl
      · unfold Segment.token? at ht
        split at ht
        · cases ht
          rfl
        · cases ht
    · obtain ⟨front, u, back, rfl, hkind, hplace⟩ := ih _ ht
      refine ⟨s :: front, u, back, rfl, hkind, ?_⟩
      rw [hplace, ← Place.after_append]
      rfl

private theorem standsOn_of_segment {front back : List Segment} {s : Segment}
    (h : Segmentation (Text.foldNewlines source.toList) (front ++ s :: back))
    (hs : s.kind? = some t.kind) (hp : t.place = .behind (Segment.joined front)) :
    t.StandsOn (Text.lineAt (Text.lines source) t.place.line) := by
  have hconstruct := construct_of_segmentation h
  rw [piece_of_kind hs] at hconstruct
  have htext : Text.foldNewlines source.toList =
      Segment.joined front ++ (s.text ++ Segment.joined back) := by
    rw [← h.joined, Segment.joined_append]
    rfl
  rw [Token.StandsOn, hp]
  cases hkind : t.kind.endsLine with
  | true =>
    have hend : t.kind = .lineEnd := by
      have hne := Lexeme.kind_ne_textEnd hconstruct
      cases hk : t.kind with
      | lineEnd => rfl
      | textEnd => exact absurd hk hne
      | _ =>
        rw [hk] at hkind
        cases hkind
    rw [hend] at hconstruct
    rw [if_pos rfl, ← String.length_toList, lineAt_behind htext, text_of_lineEnd hconstruct]
    have hstop : (['\n'] ++ Segment.joined back).takeWhile (· ≠ '\n') = [] := rfl
    rw [hstop, List.append_nil]
    exact Int.add_comm ..
  | false =>
    have hne : ∀ c ∈ s.text, decide (c ≠ '\n') = true := fun c hc => by
      rw [decide_eq_true_eq]
      rintro rfl
      exact lineFeed_not_mem_of_token hconstruct (by rintro hk; rw [hk] at hkind; cases hkind) hc
    rw [if_neg Bool.false_ne_true]
    refine ⟨Int.le_add_of_nonneg_right (Int.natCast_nonneg _), s.text, _, hconstruct, ?_⟩
    rw [drop_lineAt_behind htext, List.takeWhile_append_of_pos hne]

/-- Every token of a source text is on the line of its place. -/
theorem standsOn_of_mem (h : Token.ofSource source = .ok tokens) (ht : t ∈ tokens) :
    1 ≤ t.place.line ∧ t.place.line ≤ (Text.lines source).length ∧
      t.StandsOn (Text.lineAt (Text.lines source) t.place.line) := by
  obtain ⟨segments, hall, rfl⟩ := tokens_of_ofSource h
  have hseg := Segment.all_eq_iff.1 hall
  rcases List.mem_append.1 ht with ht | ht
  · obtain ⟨front, s, back, rfl, hs, hp⟩ := exists_segment {} segments ht
    rw [Place.after_eq_behind] at hp
    have htext : Text.foldNewlines source.toList =
        Segment.joined front ++ Segment.joined (s :: back) := by
      rw [← hseg.joined, Segment.joined_append]
    have hline := line_behind htext
    exact ⟨hp ▸ hline.1, hp ▸ hline.2, standsOn_of_segment hseg hs hp⟩
  · cases List.mem_singleton.1 ht
    have htext : Text.foldNewlines source.toList = Segment.joined segments ++ [] := by
      rw [List.append_nil, hseg.joined]
    have hline := line_behind htext
    rw [Place.after_eq_behind]
    refine ⟨hline.1, hline.2, ?_⟩
    change _ = ((Text.lineAt (Text.lines source) _).length : Int) + 1
    rw [← String.length_toList, lineAt_behind htext, List.takeWhile_nil, List.append_nil]
    exact Int.add_comm ..

/-- Reading stops only at a malformed text, and before it there are constructs. -/
theorem malformed_of_all {o : Obstacle} (h : (Segment.all text).2 = some o) :
    ∃ c cs, text = Segment.joined (Segment.all text).1 ++ c :: cs ∧ c ≠ '\n' ∧
      Lexeme.Malformed o.fault (c :: cs) := by
  fun_induction Segment.all text with
  | case1 => cases h
  | case2 c cs fault hf =>
    cases h
    refine ⟨c, cs, rfl, ?_, Lexeme.malformed_of_cut hf⟩
    rintro rfl
    cases hf
  | case3 c cs piece hf behind ih =>
    obtain ⟨d, ds, htext, hd, hmalformed⟩ := ih h
    refine ⟨d, ds, ?_, hd, hmalformed⟩
    rw [Segment.joined, List.flatMap_cons, List.append_assoc, ← Segment.joined, ← htext,
      Lexeme.cut_append]

/-- A text that has no tokens is read up to what cannot be, and the diagnostic is of that. -/
theorem obstacle_of_ofSource {d : Diagnostic} (h : Token.ofSource source = .error d) :
    ∃ segments o, Segment.all (Text.foldNewlines source.toList) = (segments, some o) ∧
      d = Scan.diagnose (Text.lines source) o.fault (.behind (Segment.joined segments)) := by
  rw [Token.ofSource, Scan.ofSource, Scan.ofChars] at h
  rcases hall : Segment.all (Text.foldNewlines source.toList) with ⟨segments, _ | o⟩
  · rw [hall] at h
    cases h
  · rw [hall] at h
    cases h
    exact ⟨segments, o, rfl, by rw [Place.after_eq_behind]⟩

/-- A source text with a literal of more digits than are read, or than are written. -/
def Token.Overlong (source : String) (long : Text.NumeralFault) : Prop :=
  ∃ front text, Text.foldNewlines source.toList = front ++ text ∧
    Lexeme.Malformed (.numeral long) text

/-- The diagnostic of a text that has no tokens is at the malformed text where reading stops, unless
a literal there is too long. -/
theorem ofSource_malformed {d : Diagnostic} (h : Token.ofSource source = .error d) :
    (∃ long, d = { cause := .numeral long } ∧ Token.Overlong source long) ∨
    ∃ fault front c cs, (∀ long, fault ≠ .numeral long) ∧
      Text.foldNewlines source.toList = front ++ c :: cs ∧ c ≠ '\n' ∧
      Lexeme.Malformed fault (c :: cs) ∧ d = .lexical fault (.behind front)
        (Text.lineAt (Text.lines source) (Place.behind front).line) := by
  obtain ⟨segments, o, hall, hd⟩ := obstacle_of_ofSource h
  obtain ⟨c, cs, htext, hc, hm⟩ := malformed_of_all (congrArg Prod.snd hall)
  rw [hall] at htext
  rcases Scan.diagnose_cases (Text.lines source) o.fault (.behind (Segment.joined segments)) with
    ⟨long, hlong, hnumeral⟩ | ⟨hshort, hlexical⟩
  · exact .inl ⟨long, hd.trans hnumeral, _, _, htext, hlong ▸ hm⟩
  · exact .inr ⟨o.fault, _, c, cs, hshort, htext, hc, hm, hd.trans hlexical⟩

end Tokens
end MiniRisc
