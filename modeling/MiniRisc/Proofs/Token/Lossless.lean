import Mathlib
import MiniRisc.Proofs.Token.Place
import MiniRisc.Proofs.Token.Segmentation
import MiniRisc.Token.Scan
/-! Tokens of a source text. They stand for the constructs that the text is made up of, each at the
place where its characters are. -/
namespace MiniRisc

namespace Segment

def kind? (s : Segment) : Option Token.Kind :=
  match s.piece with
  | .token kind => some kind
  | _ => none

section Tokens
variable {p : Place} {front back : List Segment} {s : Segment} {kind : Token.Kind}

theorem kind_token? (s : Segment) (p : Place) : (s.token? p).map (·.kind) = s.kind? := by
  rw [token?, kind?]
  cases s.piece <;> rfl

theorem token?_of_kind (h : s.kind? = some kind) (p : Place) : s.token? p = some ⟨kind, p⟩ := by
  rw [kind?] at h
  rw [token?]
  split at h
  · cases h
    simp_all
  · cases h

theorem tokens_append (p : Place) (front back : List Segment) : tokens p (front ++ back) =
    tokens p front ++ tokens (p.after (joined front)) back := by
  induction front generalizing p with
  | nil => rfl
  | cons s rest ih =>
    rw [List.cons_append, tokens, tokens, ih, List.append_assoc, ← Place.after_append]
    rfl

theorem kinds_tokens (p : Place) (segments : List Segment) :
    (tokens p segments).map (·.kind) = segments.filterMap kind? := by
  induction segments generalizing p with
  | nil => rfl
  | cons s rest ih =>
    rw [tokens, List.map_append, ih, List.filterMap_cons, ← kind_token? s p]
    cases s.token? p <;> rfl

private theorem getElem?_tokens (h : s.kind? = some kind) :
    (tokens p (front ++ s :: back))[(front.filterMap kind?).length]? =
      some ⟨kind, p.after (joined front)⟩ := by
  rw [tokens_append, ← kinds_tokens p front, List.length_map,
    List.getElem?_append_right (Nat.le_refl _), Nat.sub_self, tokens, token?_of_kind h]
  rfl

theorem joined_append (front back : List Segment) :
    joined (front ++ back) = joined front ++ joined back := List.flatMap_append

end Tokens
end Segment

open Segment

section Lines
variable {source : String} {front back : List Char}

theorem lineAt_behind (h : Text.foldNewlines source.toList = front ++ back) :
    (Text.lineAt (Text.lines source) (Place.behind front).line).toList =
      Text.lastLine front ++ back.takeWhile (· ≠ '\n') := by
  have hline := Text.getElem?_splitLines front back
  have hindex : ((1 : Int) + front.count '\n' - 1).toNat = front.count '\n' := by omega
  have hpositive : (1 : Int) ≤ 1 + front.count '\n' := by omega
  rw [Text.lineAt, Text.lines, h, Place.behind, if_pos hpositive, hindex,
    List.getD_eq_getElem?_getD, List.getElem?_map, hline]
  exact String.toList_ofList

/-- From its place on, a line goes on as the text does. -/
theorem drop_lineAt_behind (h : Text.foldNewlines source.toList = front ++ back) :
    (Text.lineAt (Text.lines source) (Place.behind front).line).toList.drop
      ((Place.behind front).column - 1).toNat = back.takeWhile (· ≠ '\n') := by
  have hcolumn : ((1 : Int) + (Text.lastLine front).length - 1).toNat =
    (Text.lastLine front).length := by omega
  rw [lineAt_behind h, Place.behind, hcolumn, List.drop_left]

end Lines

section Characters
variable {behind text : List Char} {kind : Token.Kind}

private theorem lineFeed_not_mem {p : Char → Bool} (h : ∀ c ∈ text, p c = true)
    (hp : p '\n' = false) : '\n' ∉ text := by
  intro hm
  rw [h _ hm] at hp
  cases hp

private theorem lineFeed_not_mem_baseMark {base : Nat} {mark : List Char}
    (h : Lexeme.BaseMark base mark) : '\n' ∉ mark := by
  cases h <;> decide

/-- Only a line end has a line feed. -/
theorem lineFeed_not_mem_of_token (h : Lexeme.Construct behind (.token kind) text)
    (hk : kind ≠ .lineEnd) : '\n' ∉ text := by
  cases h with
  | lineEnd => exact absurd rfl hk
  | mark m => cases m <;> decide
  | name first inner =>
    rw [List.mem_cons, not_or]
    refine ⟨?_, lineFeed_not_mem inner rfl⟩
    rintro rfl
    cases first
  | literal hs hb hn digit =>
    rw [List.mem_append, List.mem_append, not_or, not_or]
    refine ⟨?_, lineFeed_not_mem_baseMark hb, lineFeed_not_mem digit ?_⟩
    · simp only [List.mem_cons, List.not_mem_nil, or_false] at hs
      rcases hs with rfl | rfl | rfl <;> decide
    · rfl

theorem text_of_lineEnd (h : Lexeme.Construct behind (.token .lineEnd) text) : text = ['\n'] := by
  generalize hpiece : Lexeme.Piece.token .lineEnd = piece at h
  cases h with
  | lineEnd => rfl
  | _ => cases hpiece

end Characters

/-- A construct at a place is on its line: its characters stand there from the column on, or the
line ends before it if it is a line end. -/
def OnLine (source : String) (s : Segment) (p : Place) : Prop :=
  if s.kind? = some .lineEnd then
    p.column = (Text.lineAt (Text.lines source) p.line).toList.length + 1
  else s.text <+: (Text.lineAt (Text.lines source) p.line).toList.drop (p.column - 1).toNat

/-- The tokens of a source text and the constructs that it is made up of. -/
structure Tokenized (source : String) (segments : List Segment) (tokens : List Token) : Prop where
  segmentation : Segmentation (Text.foldNewlines source.toList) segments
  joined : Segment.joined segments = Text.foldNewlines source.toList
  unique (other : List Segment) :
    Segmentation (Text.foldNewlines source.toList) other → other = segments
  kinds : tokens.map (·.kind) = segments.filterMap kind? ++ [.textEnd]
  textEnd : tokens.getLast? = some ⟨.textEnd, .behind (Text.foldNewlines source.toList)⟩
  place (front : List Segment) (s : Segment) (back : List Segment) (kind : Token.Kind) :
    segments = front ++ s :: back → s.kind? = some kind →
      tokens[(front.filterMap kind?).length]? = some ⟨kind, .behind (Segment.joined front)⟩ ∧
        OnLine source s (.behind (Segment.joined front))

section Source
variable {source : String} {tokens : List Token} {segments front back : List Segment} {s : Segment}
  {kind : Token.Kind}

theorem construct_of_segmentation {text : List Char} (h : Segmentation text (front ++ s :: back)) :
    Lexeme.Construct (joined back) s.piece s.text := by
  induction front generalizing text with
  | nil =>
    cases h with
    | cons head tail => exact tail.joined ▸ head
  | cons u front ih =>
    cases h with
    | cons head tail => exact ih tail

theorem piece_of_kind (h : s.kind? = some kind) : s.piece = .token kind := by
  rw [kind?] at h
  split at h
  · cases h
    assumption
  · cases h

private theorem onLine_of_segmentation
    (h : Segmentation (Text.foldNewlines source.toList) (front ++ s :: back))
    (hk : s.kind? = some kind) : OnLine source s (.behind (joined front)) := by
  have hconstruct := construct_of_segmentation h
  rw [piece_of_kind hk] at hconstruct
  have htext : Text.foldNewlines source.toList = joined front ++ (s.text ++ joined back) := by
    rw [← h.joined, joined_append]
    rfl
  by_cases he : kind = .lineEnd
  · subst he
    rw [OnLine, if_pos hk, lineAt_behind htext, text_of_lineEnd hconstruct]
    have htake : (['\n'] ++ joined back).takeWhile (· ≠ '\n') = [] := rfl
    rw [htake, List.append_nil, Place.behind]
    exact Int.add_comm ..
  · have hne : ∀ c ∈ s.text, decide (c ≠ '\n') = true := fun c hc => by
      rw [decide_eq_true_eq]
      rintro rfl
      exact lineFeed_not_mem_of_token hconstruct he hc
    rw [OnLine, if_neg (by rw [hk, Option.some.injEq]; exact he), drop_lineAt_behind htext,
      List.takeWhile_append_of_pos hne]
    exact List.prefix_append ..

theorem tokens_of_ofSource (h : Token.ofSource source = .ok tokens) : ∃ segments,
    Segment.all (Text.foldNewlines source.toList) = (segments, none) ∧
    tokens =
      Segment.tokens {} segments ++ [⟨.textEnd, ({} : Place).after (joined segments)⟩] := by
  rw [Token.ofSource, Scan.ofSource, Scan.ofChars] at h
  cases hall : Segment.all (Text.foldNewlines source.toList) with
  | mk segments obstacle =>
    rw [hall] at h
    cases obstacle with
    | none =>
      cases h
      exact ⟨segments, rfl, rfl⟩
    | some o => cases h

/-- There are tokens for the texts that are made up of constructs. -/
theorem Token.ofSource_ok_iff : (∃ tokens, Token.ofSource source = .ok tokens) ↔
    ∃ segments, Segmentation (Text.foldNewlines source.toList) segments := by
  constructor
  · rintro ⟨tokens, h⟩
    obtain ⟨segments, hall, -⟩ := tokens_of_ofSource h
    exact ⟨segments, Segment.all_eq_iff.1 hall⟩
  · rintro ⟨segments, hs⟩
    rw [Token.ofSource, Scan.ofSource, Scan.ofChars, Segment.all_eq_iff.2 hs]
    exact ⟨_, rfl⟩

/-- The tokens of a source text lose nothing of it. The text is made up of constructs in one way,
and the tokens stand for those of them that are no blanks and no comments, in order, up to the end
of the text; each is at the place where the characters of its construct are. -/
theorem Token.ofSource_lossless (h : Token.ofSource source = .ok tokens) :
    ∃ segments, Tokenized source segments tokens := by
  obtain ⟨segments, hall, rfl⟩ := tokens_of_ofSource h
  have hs := Segment.all_eq_iff.1 hall
  refine ⟨segments, hs, hs.joined, fun other ho => ?_, ?_, ?_, ?_⟩
  · have hall' := Segment.all_eq_iff.2 ho
    rw [hall] at hall'
    exact (Prod.mk.inj hall').1.symm
  · rw [List.map_append, kinds_tokens]
    rfl
  · rw [List.getLast?_concat, Place.after_eq_behind, hs.joined]
  · rintro front s back kind rfl hk
    refine ⟨?_, onLine_of_segmentation hs hk⟩
    have hat : (Segment.tokens {} (front ++ s :: back))[(front.filterMap kind?).length]? =
      some ⟨kind, ({} : Place).after (joined front)⟩ := getElem?_tokens hk
    rw [List.getElem?_append_left (List.getElem?_eq_some_iff.1 hat).1, hat, Place.after_eq_behind]

end Source

theorem Token.ofSource_lossless_branch :
    Token.ofSource "/* back\n*/ b loop @ again" =
      .ok [⟨.name "b", ⟨2, 4⟩⟩, ⟨.name "loop", ⟨2, 6⟩⟩, ⟨.textEnd, ⟨2, 18⟩⟩] ∧
    ∃ segments, Tokenized "/* back\n*/ b loop @ again" segments
      [⟨.name "b", ⟨2, 4⟩⟩, ⟨.name "loop", ⟨2, 6⟩⟩, ⟨.textEnd, ⟨2, 18⟩⟩] := by
  have h : Token.ofSource "/* back\n*/ b loop @ again" =
      .ok [⟨.name "b", ⟨2, 4⟩⟩, ⟨.name "loop", ⟨2, 6⟩⟩, ⟨.textEnd, ⟨2, 18⟩⟩] := by cbv
  exact ⟨h, ofSource_lossless h⟩

end MiniRisc
