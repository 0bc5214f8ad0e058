import MiniRisc.Proofs.Token.Lossless
/-! Texts one below the other. No construct goes on behind a line feed that follows it, so a text
that ends with its line and another one are made up of the constructs of both, and the tokens of the
second stand as many lines further down. -/
namespace MiniRisc

namespace Text
variable {c : Char} {front back rest : List Char}

/-- Only a pair of carriage return and line feed is folded as one. -/
theorem foldNewlines_cons (h : c = '\r' → rest.head? ≠ some '\n') :
    foldNewlines (c :: rest) = (if c = '\r' then '\n' else c) :: foldNewlines rest := by
  rw [foldNewlines]
  rintro rest rfl rfl
  exact h rfl rfl

/-- Texts are folded each for itself, unless a pair is cut in two. -/
theorem foldNewlines_append (h : front.getLast? = some '\r' → back.head? ≠ some '\n') :
    foldNewlines (front ++ back) = foldNewlines front ++ foldNewlines back := by
  fun_induction foldNewlines front with
  | case1 => rfl
  | case2 rest ih =>
    rw [List.cons_append, List.cons_append, foldNewlines]
    refine congrArg _ (ih fun hl => h ?_)
    cases rest with
    | nil => cases hl
    | cons d rest => exact hl
  | case3 c rest hc ih =>
    have hnext : c = '\r' → (rest ++ back).head? ≠ some '\n' := by
      rintro rfl
      cases rest with
      | nil => exact h rfl
      | cons d rest =>
        intro hd
        cases hd
        exact hc rest rfl rfl
    rw [List.cons_append, foldNewlines_cons hnext]
    refine congrArg _ (ih fun hl => h ?_)
    cases rest with
    | nil => cases hl
    | cons d rest => exact hl

theorem foldNewlines_of_not_mem (h : '\r' ∉ front) : foldNewlines front = front := by
  induction front with
  | nil => rfl
  | cons c rest ih =>
    rw [List.mem_cons, not_or] at h
    have hc : c ≠ '\r' := fun he => h.1 he.symm
    rw [foldNewlines_cons fun he => absurd he hc, if_neg hc, ih h.2]

/-- A text and others on the next line. A carriage return at the end of the text becomes part of the
line ending behind it. -/
theorem foldNewlines_below (front : List Char) : ∃ above,
    (foldNewlines front = above ∨ foldNewlines front = above ++ ['\n']) ∧
      ∀ back, foldNewlines (front ++ '\n' :: back) = above ++ '\n' :: foldNewlines back := by
  by_cases h : front.getLast? = some '\r'
  · obtain ⟨front, rfl⟩ := List.getLast?_eq_some_iff.1 h
    refine ⟨foldNewlines front, .inr ?_, fun back => ?_⟩
    · exact foldNewlines_append fun _ => by simp
    · rw [List.append_assoc]
      exact foldNewlines_append fun _ => by simp
  · refine ⟨foldNewlines front, .inl rfl, fun back => ?_⟩
    rw [foldNewlines_append fun hl => absurd hl h, foldNewlines_cons (by simp)]
    rfl

end Text

namespace Lexeme
variable {p : Char → Bool} {piece : Piece} {text behind back : List Char}

private theorem stopsAt_lineFeed_iff (hp : p '\n' = false) :
    StopsAt p (behind ++ '\n' :: back) ↔ StopsAt p behind := by
  cases behind with
  | nil =>
    refine ⟨fun _ c hc => (nomatch hc), fun _ c hc => ?_⟩
    cases hc
    exact hp
  | cons c rest => rfl

/-- Behind a construct nothing counts from the next line feed on. -/
theorem construct_lineFeed_iff :
    Construct (behind ++ '\n' :: back) piece text ↔ Construct behind piece text := by
  have hcomment : (behind ++ '\n' :: back = [] ∨
      (behind ++ '\n' :: back).head? = some '\n') ↔ (behind = [] ∨ behind.head? = some '\n') := by
    cases behind <;> simp
  constructor
  · intro h
    cases h with
    | blank h => exact .blank h
    | lineComment h stop => exact .lineComment h (hcomment.1 stop)
    | blockComment h => exact .blockComment h
    | lineEnd => exact .lineEnd
    | mark m => exact .mark m
    | name first inner stop => exact .name first inner ((stopsAt_lineFeed_iff rfl).1 stop)
    | literal hs hb hn digit readable low high stop =>
      exact .literal hs hb hn digit readable low high ((stopsAt_lineFeed_iff rfl).1 stop)
  · intro h
    cases h with
    | blank h => exact .blank h
    | lineComment h stop => exact .lineComment h (hcomment.2 stop)
    | blockComment h => exact .blockComment h
    | lineEnd => exact .lineEnd
    | mark m => exact .mark m
    | name first inner stop => exact .name first inner ((stopsAt_lineFeed_iff rfl).2 stop)
    | literal hs hb hn digit readable low high stop =>
      exact .literal hs hb hn digit readable low high ((stopsAt_lineFeed_iff rfl).2 stop)

/-- A construct whose last character is a line feed is a line end. -/
theorem lineEnd_of_getLast? (h : Construct behind piece text) (hl : text.getLast? = some '\n') :
    piece = .token .lineEnd ∧ text = ['\n'] := by
  cases piece with
  | token kind =>
    by_cases hk : kind = .lineEnd
    · subst hk
      exact ⟨rfl, text_of_lineEnd h⟩
    · exact absurd (List.mem_of_getLast? hl) (lineFeed_not_mem_of_token h hk)
  | blank =>
    cases h with
    | blank h =>
      obtain rfl := Option.some.inj hl
      exact absurd h (by decide)
  | comment =>
    cases h with
    | lineComment h =>
      rcases List.mem_cons.1 (List.mem_of_getLast? hl) with hm | hm
      · cases hm
      · exact absurd hm h
    | blockComment h =>
      rename_i inner
      rw [show '/' :: '*' :: (inner ++ ['*', '/']) = ('/' :: '*' :: (inner ++ ['*'])) ++ ['/'] by
        simp, List.getLast?_concat] at hl
      cases hl

theorem kind_ne_textEnd {kind : Token.Kind} (h : Construct behind (.token kind) text) :
    kind ≠ .textEnd := by
  rintro rfl
  cases h

end Lexeme

def Segment.lineEnd : Segment := ⟨.token .lineEnd, ['\n']⟩

section Segmentation
variable {front back : List Char} {segments above below : List Segment}

/-- Two texts with a line feed between them. -/
theorem Segmentation.line (h : Segmentation front above) (h' : Segmentation back below) :
    Segmentation (front ++ '\n' :: back) (above ++ Segment.lineEnd :: below) := by
  induction h with
  | nil =>
    have head : Lexeme.Construct back Segment.lineEnd.piece Segment.lineEnd.text := .lineEnd
    exact .cons head h'
  | cons head tail ih =>
    rw [List.append_assoc]
    exact .cons (Lexeme.construct_lineFeed_iff.2 head) ih

private theorem Segmentation.eq_nil (h : Segmentation [] segments) : segments = [] := by
  generalize htext : [] = text at h
  cases h with
  | nil => rfl
  | cons head =>
    exact absurd (List.append_eq_nil_iff.1 htext.symm).1 (Lexeme.text_ne_nil_of_construct head)

/-- The last construct of a text that ends with a line feed is the line end. -/
theorem Segmentation.exists_lineEnd (h : Segmentation (front ++ ['\n']) segments) :
    ∃ above, segments = above ++ [Segment.lineEnd] ∧ Segmentation front above := by
  induction segments generalizing front with
  | nil =>
    have hj := h.joined
    simp [Segment.joined] at hj
  | cons s rest ih =>
    generalize htext : front ++ ['\n'] = text at h
    cases h with
    | @cons _ behind _ head tail =>
      rcases List.eq_nil_or_concat' behind with rfl | ⟨behind, c, rfl⟩
      · have hl : s.text.getLast? = some '\n' := by
          rw [List.append_nil] at htext
          rw [← htext, List.getLast?_concat]
        obtain ⟨hpiece, hs⟩ := Lexeme.lineEnd_of_getLast? head hl
        obtain ⟨piece, text⟩ := s
        obtain rfl : piece = _ := hpiece
        obtain rfl : text = _ := hs
        obtain rfl : front = [] := by simpa using htext
        obtain rfl := tail.eq_nil
        exact ⟨[], rfl, .nil⟩
      · obtain ⟨hfront, hc⟩ : front = s.text ++ behind ∧ '\n' = c := by
          rw [← List.append_assoc] at htext
          simpa using List.append_inj' htext rfl
        subst hfront hc
        obtain ⟨above, rfl, habove⟩ := ih tail
        exact ⟨s :: above, rfl, .cons (Lexeme.construct_lineFeed_iff.1 head) habove⟩

end Segmentation

namespace Place

def below (k : Nat) (p : Place) : Place := ⟨p.line + k, p.column⟩

@[simp] theorem below_zero (p : Place) : p.below 0 = p := by
  simp [below]

private theorem step_below (k : Nat) (p : Place) (c : Char) :
    (p.below k).step c = (p.step c).below k := by
  unfold step below
  split
  · simp only [Place.mk.injEq, and_true]
    omega
  · rfl

private theorem after_below (k : Nat) (p : Place) (text : List Char) :
    (p.below k).after text = (p.after text).below k := by
  induction text generalizing p with
  | nil => rfl
  | cons c rest ih =>
    have hafter (q : Place) : q.after (c :: rest) = (q.step c).after rest := rfl
    rw [hafter, hafter, step_below, ih]

/-- Behind a text and a line feed the next line begins. -/
theorem after_line (text : List Char) :
    ({} : Place).after (text ++ ['\n']) = ({} : Place).below (text.count '\n' + 1) := by
  have hline := line_after {} text
  rw [after_append]
  simp only [after, List.foldl_cons, List.foldl_nil, step, below] at hline ⊢
  rw [if_pos trivial, hline]
  simp [Int.add_assoc]

end Place

def Token.below (k : Nat) (t : Token) : Token := { t with place := t.place.below k }

theorem Token.below_zero : Token.below 0 = id := by
  funext t
  simp [below]

@[simp] theorem Token.kind_below (k : Nat) (t : Token) : (t.below k).kind = t.kind := rfl

namespace Segment
variable {front : List Char} {segments above below : List Segment}

private theorem tokens_below (k : Nat) (p : Place) (segments : List Segment) :
    tokens (p.below k) segments = (tokens p segments).map (Token.below k) := by
  induction segments generalizing p with
  | nil => rfl
  | cons s rest ih =>
    rw [tokens, tokens, List.map_append, Place.after_below, ih]
    refine congrArg (· ++ _) ?_
    unfold token?
    cases s.piece <;> rfl

/-- The tokens of two texts with a line feed between them. -/
theorem tokens_lineEnd (h : Segmentation front above) (below : List Segment) :
    tokens {} (above ++ lineEnd :: below) = tokens {} above ++
      ⟨.lineEnd, ({} : Place).after front⟩ ::
        (tokens {} below).map (Token.below (front.count '\n' + 1)) := by
  have hplace : (({} : Place).after front).after lineEnd.text =
      ({} : Place).below (front.count '\n' + 1) := by
    rw [← Place.after_append, ← Place.after_line]
    rfl
  rw [tokens_append, h.joined, tokens, hplace, tokens_below]
  rfl

/-- Every token is made by a construct. -/
theorem exists_construct (h : Segmentation front segments) (p : Place) :
    ∀ t ∈ tokens p segments, ∃ behind text, Lexeme.Construct behind (.token t.kind) text := by
  induction h generalizing p with
  | nil => simp [tokens]
  | @cons s behind rest head tail ih =>
    intro t ht
    rw [tokens, List.mem_append] at ht
    rcases ht with ht | ht
    · unfold token? at ht
      split at ht
      · rename_i kind hpiece
        rw [hpiece] at head
        cases List.mem_singleton.1 ht
        exact ⟨behind, s.text, head⟩
      · cases ht
    · exact ih _ t ht

theorem kind_ne_textEnd (h : Segmentation front segments) (p : Place) :
    ∀ t ∈ tokens p segments, t.kind ≠ .textEnd := by
  intro t ht
  obtain ⟨behind, text, hconstruct⟩ := exists_construct h p t ht
  exact Lexeme.kind_ne_textEnd hconstruct

end Segment
end MiniRisc
