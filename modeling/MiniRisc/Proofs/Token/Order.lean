import MiniRisc.Proofs.Token.Located
/-! Tokens in the order of a text. Their lines never go down, and they go up behind every line end,
also where a comment before it has line feeds of its own. -/
namespace MiniRisc

/-- A token is on no later line than another, and on an earlier one if it is a line end. -/
structure Token.Before (t u : Token) : Prop where
  line : t.place.line ≤ u.place.line
  lineEnd : t.kind = .lineEnd → t.place.line < u.place.line

section Tokens
variable {p : Place} {text : List Char} {segments : List Segment} {t : Token}

private theorem Place.line_le_after (p : Place) (text : List Char) :
    p.line ≤ (p.after text).line := by
  rw [line_after]
  omega

/-- Tokens are on no line before the place that they begin at. -/
theorem line_le_of_mem (ht : t ∈ Segment.tokens p segments) : p.line ≤ t.place.line := by
  obtain ⟨front, s, back, -, -, hplace⟩ := exists_segment p segments ht
  rw [hplace]
  exact p.line_le_after _

/-- A token stands before what follows the construct that it is. -/
theorem before_of_construct {behind written : List Char} {kind : Token.Kind} {u : Token}
    (h : Lexeme.Construct behind (.token kind) written)
    (hu : (p.after written).line ≤ u.place.line) : Token.Before ⟨kind, p⟩ u := by
  refine ⟨(p.line_le_after written).trans hu, fun he => ?_⟩
  obtain rfl : kind = .lineEnd := he
  rw [text_of_lineEnd h, Place.line_after] at hu
  exact Int.lt_iff_add_one_le.2 hu

private theorem before_tokens (h : Segmentation text segments) (p : Place) :
    (Segment.tokens p segments ++ [⟨.textEnd, p.after text⟩] : List Token).Pairwise
      Token.Before := by
  induction h generalizing p with
  | nil => simp [Segment.tokens]
  | @cons s behind rest head tail ih =>
    have ih := ih (p.after s.text)
    rw [← Place.after_append] at ih
    rw [Segment.tokens, List.append_assoc]
    have htoken := s.kind_token? p
    cases hk : s.kind? with
    | none =>
      rw [hk] at htoken
      rwa [Option.map_eq_none_iff.1 htoken]
    | some kind =>
      rw [piece_of_kind hk] at head
      rw [Segment.token?_of_kind hk, Option.toList_some, List.singleton_append]
      refine List.pairwise_cons.2 ⟨fun u hu => before_of_construct head ?_, ih⟩
      rcases List.mem_append.1 hu with hu | hu
      · exact line_le_of_mem hu
      · rw [List.mem_singleton.1 hu, Place.after_append]
        exact Place.line_le_after _ behind

/-- The tokens of a source text are in the order of their lines. -/
theorem before_of_ofSource {source : String} {tokens : List Token}
    (h : Token.ofSource source = .ok tokens) : tokens.Pairwise Token.Before := by
  obtain ⟨segments, hall, rfl⟩ := tokens_of_ofSource h
  have hs := Segment.all_eq_iff.1 hall
  rw [hs.joined]
  exact before_tokens hs {}

/-- A name is a construct of its own characters. -/
theorem text_of_name {behind : List Char} {word : String}
    (h : Lexeme.Construct behind (.token (.name word)) text) : text = word.toList := by
  cases h with
  | name => exact String.toList_ofList.symm

/-- A name of a source text is written at its place. -/
theorem exists_written {source word : String} {tokens : List Token}
    (h : Token.ofSource source = .ok tokens) (ht : t ∈ tokens) (hk : t.kind = .name word) :
    ∃ front back, Text.foldNewlines source.toList = front ++ word.toList ++ back ∧
      t.place = .behind front := by
  obtain ⟨segments, hall, rfl⟩ := tokens_of_ofSource h
  have hseg := Segment.all_eq_iff.1 hall
  rcases List.mem_append.1 ht with ht | ht
  · obtain ⟨front, s, back, rfl, hs, hp⟩ := exists_segment {} segments ht
    have hconstruct := construct_of_segmentation hseg
    rw [piece_of_kind hs, hk] at hconstruct
    refine ⟨Segment.joined front, Segment.joined back, ?_, hp.trans (Place.after_eq_behind _)⟩
    rw [← hseg.joined, Segment.joined_append, ← text_of_name hconstruct, List.append_assoc]
    rfl
  · rw [List.mem_singleton.1 ht] at hk
    cases hk

end Tokens
end MiniRisc
