import MiniRisc.Proofs.Text.Endings
import MiniRisc.Proofs.Token.Overlong
/-! Source texts that cannot be read to their end. The diagnostic tells the first character where no
construct begins, unless a literal that is too long does, and what is before it is read as if it
were the whole text. -/
namespace MiniRisc

section Constructs
variable {behind front text : List Char} {piece : Lexeme.Piece}

/-- A construct stays one where less is behind it. -/
theorem Lexeme.Construct.of_initial (h : Construct behind piece text) (hp : front <+: behind) :
    Construct front piece text := by
  have hhead (c : Char) (hc : front.head? = some c) : behind.head? = some c := by
    obtain ⟨rest, rfl⟩ := List.head?_eq_some_iff.1 hc
    obtain ⟨back, rfl⟩ := hp
    rfl
  have hstops {p : Char → Bool} (hstop : StopsAt p behind) : StopsAt p front :=
    fun c hc => hstop c (hhead c hc)
  cases h with
  | blank h => exact .blank h
  | lineComment h stop =>
    refine .lineComment h ?_
    cases front with
    | nil => exact .inl rfl
    | cons c rest =>
      have hc := hhead c rfl
      rcases stop with rfl | stop
      · cases hc
      · exact .inr (hc.symm.trans stop)
  | blockComment h => exact .blockComment h
  | lineEnd => exact .lineEnd
  | mark m => exact .mark m
  | name first inner stop => exact .name first inner (hstops stop)
  | literal hs hb hn digit readable low high stop =>
    exact .literal hs hb hn digit readable low high (hstops stop)

private theorem Segment.joined_initial (text : List Char) : joined (all text).1 <+: text :=
  ⟨_, joined_append_unread text⟩

/-- The constructs before a text that cannot be read make up what is before it. -/
theorem Segment.segmentation_joined (text : List Char) :
    Segmentation (joined (all text).1) (all text).1 := by
  fun_induction all text with
  | case1 => exact .nil
  | case2 c cs fault h => exact .nil
  | case3 c cs piece h behind ih =>
    exact .cons (s := ⟨piece, _⟩) ((Lexeme.construct_of_cut h).of_initial (joined_initial _)) ih

end Constructs

namespace Place
variable {text : List Char} {j k : Nat}

/-- Behind more characters is another place. -/
theorem after_ne {p : Place} (h : text ≠ []) : p.after text ≠ p := by
  intro hafter
  have hline := p.line_after text
  have hcolumn := p.column_after text
  have hlength := List.length_pos_iff.2 h
  rw [hafter] at hline hcolumn
  have hnone : '\n' ∉ text := List.count_eq_zero.1 (by omega)
  rw [if_neg hnone] at hcolumn
  omega

private theorem behind_take_ne (h : j < k) (hk : k ≤ text.length) :
    behind (text.take j) ≠ behind (text.take k) := by
  intro he
  have hsplit : text.take j ++ (text.take k).drop j = text.take k := by
    have htake := List.take_append_drop j (text.take k)
    rwa [List.take_take, Nat.min_eq_left (by omega)] at htake
  have hmore : (text.take k).drop j ≠ [] := by
    rw [← List.length_pos_iff, List.length_drop, List.length_take]
    omega
  rw [← hsplit, ← after_eq_behind, ← after_eq_behind, after_append] at he
  exact after_ne hmore he.symm

/-- A place of a text is the place of one character of it. -/
theorem behind_take_inj (hj : j ≤ text.length) (hk : k ≤ text.length) :
    behind (text.take j) = behind (text.take k) ↔ j = k := by
  refine ⟨fun h => ?_, fun h => by rw [h]⟩
  rcases Nat.lt_trichotomy j k with hlt | rfl | hlt
  · exact absurd h (behind_take_ne hlt hk)
  · rfl
  · exact absurd h.symm (behind_take_ne hlt hj)

end Place

namespace Token

/-- A source text that cannot be read from its character `k` on, counted behind folded line endings,
though it can be up to there. -/
structure FaultAt (source : String) (d : Diagnostic) (fault : LexicalFault) (place : Place)
    (k : Nat) : Prop where
  /-- The fault is told with its place, or else it is the number of digits of a literal alone. -/
  told : (∃ long, fault = .numeral long ∧ d = { cause := .numeral long }) ∨
    (∀ long, fault ≠ .numeral long) ∧
      d = .lexical fault place (Text.lineAt (Text.lines source) place.line)
  inside : k < (Text.foldNewlines source.toList).length
  /-- The place is that of the character. -/
  offset (j : Nat) : j ≤ (Text.foldNewlines source.toList).length →
    (Place.behind ((Text.foldNewlines source.toList).take j) = place ↔ j = k)
  /-- The text before the character has the tokens that are found, and its end. -/
  before : ofSource (String.ofList ((Text.foldNewlines source.toList).take k)) =
    .ok ((Scan.ofSource source).tokens ++ [⟨.textEnd, place⟩])
  /-- One at a time, the same tokens are given before the fault is. -/
  given (n : Nat) :
    (Reader.ofSource source).answers ((Scan.ofSource source).tokens.length + 1 + n) =
      (Scan.ofSource source).tokens.map .token ++
        .failed d :: List.replicate n Reader.Answer.exhausted
  /-- No construct begins with the character. -/
  outside (piece : Lexeme.Piece) (text behind : List Char) :
    (Text.foldNewlines source.toList).drop k = text ++ behind →
      ¬ Lexeme.Construct behind piece text
  /-- The text from the character on is malformed in this way only. -/
  malformed (other : LexicalFault) :
    Lexeme.Malformed other ((Text.foldNewlines source.toList).drop k) ↔ other = fault

private theorem not_construct_of_malformed {fault : LexicalFault} {text behind : List Char}
    {piece : Lexeme.Piece} (h : Lexeme.Malformed fault (text ++ behind)) :
    ¬ Lexeme.Construct behind piece text := by
  intro hconstruct
  obtain ⟨c, cs, htext⟩ :=
    List.exists_cons_of_ne_nil (Lexeme.text_ne_nil_of_construct hconstruct)
  have hfront : text ++ behind = c :: (cs ++ behind) := by rw [htext]; rfl
  have hcut := Lexeme.cut_of_malformed h hfront
  rw [Lexeme.cut_of_construct hconstruct hfront] at hcut
  cases hcut

section Source
variable {source : String} {d : Diagnostic} {segments : List Segment} {o : Obstacle}

/-- The scan of a text that cannot be read to its end. -/
theorem scan_of_obstacle
    (h : Segment.all (Text.foldNewlines source.toList) = (segments, some o)) :
    Scan.ofSource source = ⟨Segment.tokens {} segments,
      some (o.fault, .behind (Segment.joined segments)),
      ⟨o.rest, (Place.behind (Segment.joined segments)).after o.text⟩⟩ := by
  rw [Scan.ofSource, Scan.ofChars, h]
  dsimp only
  rw [Place.after_eq_behind]

/-- What is before a fault is read as if it were the whole text. -/
theorem ofSource_joined (h : Segment.all (Text.foldNewlines source.toList) = (segments, some o)) :
    ofSource (String.ofList (Segment.joined segments)) = .ok ((Scan.ofSource source).tokens ++
      [⟨.textEnd, .behind (Segment.joined segments)⟩]) := by
  have hsegments := Segment.segmentation_joined (Text.foldNewlines source.toList)
  have hinitial := Segment.joined_initial (Text.foldNewlines source.toList)
  rw [h] at hsegments hinitial
  dsimp only at hsegments hinitial
  have hreturn : '\r' ∉ Segment.joined segments := fun hm =>
    Text.return_not_mem_foldNewlines source.toList (hinitial.subset hm)
  have hall := Segment.all_of_segmentation hsegments
  rw [ofSource, Scan.ofSource, String.toList_ofList, Text.foldNewlines_of_not_mem hreturn,
    Scan.ofChars, hall, scan_of_obstacle h, ← Place.after_eq_behind]
  rfl

private theorem answers_of_obstacle
    (h : Segment.all (Text.foldNewlines source.toList) = (segments, some o)) (n : Nat) :
    (Reader.ofSource source).answers ((Scan.ofSource source).tokens.length + 1 + n) =
      (Scan.ofSource source).tokens.map .token ++ .failed (Scan.diagnose (Text.lines source) o.fault
        (.behind (Segment.joined segments))) :: List.replicate n Reader.Answer.exhausted := by
  have hanswers : (Scan.ofSource source).answers (Text.lines source) =
      (Scan.ofSource source).tokens.map .token ++
        [.failed (Scan.diagnose (Text.lines source) o.fault
          (.behind (Segment.joined segments)))] := by
    rw [scan_of_obstacle h]
    rfl
  have hlength := congrArg List.length hanswers
  rw [List.length_append, List.length_map, List.length_singleton] at hlength
  rw [Reader.answers_ofSource, List.take_of_length_le (by omega), hlength, hanswers,
    List.append_assoc, Nat.add_sub_cancel_left]
  rfl

/-- The diagnostic of a source text without tokens is that of the first character where no construct
begins, though a literal with too many digits is told without its place. Nothing before it is
spoilt: the tokens that are found there, all at once or one by one, are those of the text before it.
What begins with it is malformed in one of the ways that there are, and that way is told. -/
theorem ofSource_firstFault (h : ofSource source = .error d) :
    ∃ fault place k, FaultAt source d fault place k := by
  obtain ⟨segments, o, hall, rfl⟩ := obstacle_of_ofSource h
  obtain ⟨c, cs, htext, -, hmalformed⟩ := malformed_of_all (congrArg Prod.snd hall)
  rw [hall] at htext
  dsimp only at htext
  have htake : (Text.foldNewlines source.toList).take (Segment.joined segments).length =
      Segment.joined segments := by rw [htext, List.take_left]
  have hdrop : (Text.foldNewlines source.toList).drop (Segment.joined segments).length =
      c :: cs := by rw [htext, List.drop_left]
  have hinside : (Segment.joined segments).length < (Text.foldNewlines source.toList).length := by
    rw [htext, List.length_append, List.length_cons]
    omega
  refine ⟨o.fault, .behind (Segment.joined segments), (Segment.joined segments).length,
    Scan.diagnose_cases .., hinside, fun j hj => ?_, ?_, answers_of_obstacle hall, ?_,
    fun other => ?_⟩
  · rw [← Place.behind_take_inj hj hinside.le, htake]
  · rw [htake]
    exact ofSource_joined hall
  · intro piece text behind hrest
    rw [hdrop] at hrest
    exact not_construct_of_malformed (hrest ▸ hmalformed)
  · rw [hdrop, Lexeme.malformed_iff, Lexeme.malformed_iff.1 hmalformed]
    exact ⟨fun he => (Except.error.inj he).symm, fun he => by rw [he]⟩

end Source

theorem ofSource_firstFault_farLiteral :
    ofSource "mov r1, /* a\nb */ -32769" =
      .error ⟨.lexical (.outOfRange (-32769)) 6, 2, "b */ -32769"⟩ ∧
    ∃ fault place k, FaultAt "mov r1, /* a\nb */ -32769"
      ⟨.lexical (.outOfRange (-32769)) 6, 2, "b */ -32769"⟩ fault place k := by
  have h : ofSource "mov r1, /* a\nb */ -32769" =
      .error ⟨.lexical (.outOfRange (-32769)) 6, 2, "b */ -32769"⟩ := by cbv
  exact ⟨h, ofSource_firstFault h⟩

/-- A literal of 15000 binary digits is out of range, and neither it nor its place is told. -/
theorem ofSource_farBinary :
    10 ^ Text.digitLimit ≤ (Lexeme.literalValue [] 2 (List.replicate 15000 '1')).natAbs ∧
    ofSource (String.ofList (['0', 'b'] ++ List.replicate 15000 '1')) =
      .error { cause := .numeral .writing } := by
  have long : 10 ^ 43 < 2 ^ 150 := by decide
  have hlong := le_literalValue_replicate [] (show Text.digitValue '1' + 1 = 2 by decide) long
  have hread := ofSource_replicate List.mem_cons_self .binary (by decide)
    (show Text.isDigitOf 2 '1' = true by decide) (by decide) long
  rw [List.nil_append] at hread
  exact ⟨hlong, hread⟩

end Token
end MiniRisc
