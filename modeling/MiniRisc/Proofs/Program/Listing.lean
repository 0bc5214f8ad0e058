import MiniRisc.Assembly.Session
import MiniRisc.Proofs.Assembly.Resolution
import MiniRisc.Proofs.Program.RoundTrip
import MiniRisc.Proofs.Statement.Located
import MiniRisc.Proofs.Text.Digits
import MiniRisc.Proofs.Text.Line
/-! Listings beside images. A listing numbers the statements with a body by a count of its own; the
numbers are those of the instructions, and the words are those of the image. -/
namespace MiniRisc

namespace Program
variable {words : List Nat} {word : Nat}

def storedWord (image : List UInt8) (index : Nat) : Nat :=
  Word.ofBytes ((image.drop (4 * index)).take 4)

private theorem storedWord_flatMap (h : ∀ word ∈ words, word < 2 ^ 32) {index : Nat}
    (hw : words[index]? = some word) :
    storedWord (words.flatMap fun (word : Nat) => Word.bytes word) index = word := by
  induction words generalizing index with
  | nil => cases hw
  | cons head rest ih =>
    have hlength := Word.length_bytes head
    rw [storedWord, List.flatMap_cons]
    cases index with
    | zero =>
      cases hw
      have hbytes := Word.ofBytes_bytes word
      have hword := h word List.mem_cons_self
      rw [Nat.mul_zero, List.drop_zero, List.take_append_of_le_length (by omega),
        List.take_of_length_le (by omega)]
      unfold Word.unsigned Word.modulus at hbytes
      omega
    | succ index =>
      rw [Nat.mul_succ, Nat.add_comm, ← List.drop_drop, List.drop_left' hlength]
      exact ih (fun w hm => h w (List.mem_cons_of_mem _ hm)) hw

end Program

namespace Assembly

section Rows
variable {ops : List Operation} {words : List Nat} {ss : List Statement} {index : Nat}

/-- What a listing shows of a statement, from the words of instructions that begin at an index. -/
def Shows (words : List Nat) (index count : Nat) (s : Statement) (line : String) : Prop :=
  match s.body with
  | none => line = row "" "" s.text
  | some _ => ∃ word, words[count]? = some word ∧
    line = row (Text.decimal (index + count : Nat)) (Text.padLeft '0' 8 (Text.hex word)) s.text

/-- Where every operation has a word, every statement has a row. -/
theorem rows_of_words (hw : Program.wordsFrom index ops = .ok words)
    (hn : ops.length = bodyCount ss) : ∃ lines, rows ops index ss = .ok lines ∧
      lines.length = ss.length ∧ ∀ front s back, ss = front ++ s :: back →
        ∃ line, lines[front.length]? = some line ∧ Shows words index (bodyCount front) s line := by
  -- A statement without a body has no operation: the index and the operations stay.
  induction ss generalizing ops words index with
  | nil => exact ⟨[], rfl, rfl, fun front s back h => by simp at h⟩
  | cons s rest ih =>
    cases hb : s.body with
    | none =>
      have hcount (ts : List Statement) : bodyCount (s :: ts) = bodyCount ts := by
        simp [bodyCount, hb]
      obtain ⟨lines, hlines, hlength, hat⟩ := ih hw (by rw [hn, hcount])
      refine ⟨row "" "" s.text :: lines, ?_, by simp [hlength], fun front t back hsplit => ?_⟩
      · simp only [rows, hb, hlines]
        rfl
      · cases front with
        | nil =>
          obtain ⟨rfl, -⟩ := List.cons.inj hsplit
          exact ⟨_, rfl, by rw [Shows, hb]⟩
        | cons u front =>
          obtain ⟨rfl, rfl⟩ := List.cons.inj hsplit
          rw [hcount]
          exact hat front t back rfl
    | some b =>
      have hcount (ts : List Statement) : bodyCount (s :: ts) = bodyCount ts + 1 := by
        simp [bodyCount, hb]
      rw [hcount] at hn
      obtain ⟨o, ops, rfl⟩ := List.exists_cons_of_length_eq_add_one hn
      obtain ⟨word, hword, hw⟩ := Outcome.bind_eq_ok_iff.1 hw
      obtain ⟨words, hws, hw⟩ := Outcome.bind_eq_ok_iff.1 hw
      cases hw
      obtain ⟨lines, hlines, hlength, hat⟩ := ih hws (by simpa using hn)
      refine ⟨row (Text.decimal index) (Text.padLeft '0' 8 (Text.hex word)) s.text :: lines, ?_,
        by simp [hlength], fun front t back hsplit => ?_⟩
      · simp only [rows, hb, hword, hlines]
        rfl
      · cases front with
        | nil =>
          obtain ⟨rfl, -⟩ := List.cons.inj hsplit
          exact ⟨_, rfl, by rw [Shows, hb]; exact ⟨word, rfl, rfl⟩⟩
        | cons u front =>
          obtain ⟨rfl, rfl⟩ := List.cons.inj hsplit
          obtain ⟨line, hline, hshows⟩ := hat front t back rfl
          refine ⟨line, hline, ?_⟩
          rw [hcount]
          rw [Shows] at hshows ⊢
          have hindex : index + (bodyCount front + 1) = index + 1 + bodyCount front := by omega
          rw [hindex]
          exact hshows

/-- Where every statement has a row, every operation has a word. -/
theorem words_of_rows {lines : List String} (h : rows ops index ss = .ok lines)
    (hn : ops.length = bodyCount ss) : ∃ words, Program.wordsFrom index ops = .ok words := by
  induction ss generalizing ops index lines with
  | nil =>
    obtain rfl := List.eq_nil_of_length_eq_zero hn
    exact ⟨[], rfl⟩
  | cons s rest ih =>
    cases hb : s.body with
    | none =>
      simp only [rows, hb] at h
      obtain ⟨others, hrest, -⟩ := Outcome.bind_eq_ok_iff.1 h
      exact ih hrest (by simpa [bodyCount, hb] using hn)
    | some b =>
      have hcount : bodyCount (s :: rest) = bodyCount rest + 1 := by simp [bodyCount, hb]
      rw [hcount] at hn
      obtain ⟨o, ops, rfl⟩ := List.exists_cons_of_length_eq_add_one hn
      simp only [rows, hb] at h
      obtain ⟨word, hword, h⟩ := Outcome.bind_eq_ok_iff.1 h
      obtain ⟨others, hrest, -⟩ := Outcome.bind_eq_ok_iff.1 h
      obtain ⟨words, hwords⟩ := ih hrest (by simpa using hn)
      refine ⟨word :: words, ?_⟩
      rw [Program.wordsFrom, hword, hwords]
      rfl

end Rows

section Text
variable {text : String} {index : Int} {word : Nat}

private theorem lineFeed_not_mem_toDigits (base value : Nat) (hb : 2 ≤ base) (hb' : base ≤ 36) :
    '\n' ∉ Text.toDigits base value := by
  intro hm
  obtain ⟨v, hv, hc⟩ := Text.mem_toDigits hb _ hm
  have table : ∀ v : Fin 36, '\n' ≠ Text.digitChar v := by decide
  exact table ⟨v, by omega⟩ hc

private theorem lineFeed_not_mem_decimal (value : Int) : '\n' ∉ (Text.decimal value).toList := by
  have hdigits := lineFeed_not_mem_toDigits 10 value.natAbs (by decide) (by decide)
  rw [Text.decimal, String.toList_ofList, Text.decimalChars]
  split
  · simpa using hdigits
  · exact hdigits

private theorem lineFeed_not_mem_hexWord {digits : String} (h : Text.HexWord word digits) :
    '\n' ∉ digits.toList := by
  intro hm
  exact absurd (h.digit _ hm) (by decide)

private theorem lineFeed_not_mem_padLeft (width : Nat) (h : '\n' ∉ text.toList) :
    '\n' ∉ (Text.padLeft ' ' width text).toList := by
  simp [Text.padLeft, h]

private theorem row_blank (text : String) : row "" "" text = "                 " ++ text := by
  have hblank : Text.padLeft ' ' 5 "" ++ "  " ++ Text.padRight 8 "" ++ "  " =
      "                 " := by decide
  rw [row, hblank]

private theorem row_word {digits : String} (h : Text.HexWord word digits) (index text : String) :
    row index digits text = Text.padLeft ' ' 5 index ++ "  " ++ digits ++ "  " ++ text := by
  rw [row, Text.padRight, h.length]
  simp

end Text

/-- Rows beside the statements that they show, and an image. Every statement has one row, with its
text. One with a body has an index before it, which counts the bodies before, and the word at that
index of the image; one without leaves both blank. -/
structure Listed (image : List UInt8) (ss : List Statement) (lines : List String) : Prop where
  length : lines.length = ss.length
  body (front : List Statement) (s : Statement) (back : List Statement) :
    ss = front ++ s :: back → s.body.isSome → ∃ digits,
      Text.HexWord (Program.storedWord image (bodyCount front)) digits ∧ lines[front.length]? =
        some (Text.padLeft ' ' 5 (Text.decimal (bodyCount front)) ++ "  " ++ digits ++ "  " ++
          s.text)
  label (front : List Statement) (s : Statement) (back : List Statement) :
    ss = front ++ s :: back → s.body = none →
      lines[front.length]? = some ("                 " ++ s.text)

end Assembly

namespace Program
open Assembly

section Listing
variable {source : String} {p : Program} {image : List UInt8} {ss : List Statement}

/-- An image holds the words of its program, all of 32 bits. -/
theorem words_of_image (h : ∀ o ∈ p.operations, o.Assembled p.size) (hi : p.toImage = .ok image) :
    ∃ words, wordsFrom 0 p.operations = .ok words ∧ (∀ word ∈ words, word < 2 ^ 32) ∧
      words.length = p.operations.length ∧
      image = words.flatMap fun (word : Nat) => Word.bytes word := by
  obtain ⟨words, hw, himage⟩ := Outcome.bind_eq_ok_iff.1 hi
  rcases wordsFrom_cases h 0 with ⟨-, words', hw', hlength, hlt, -⟩ | ⟨k, o, d, -, -, he⟩
  · cases hw.symm.trans hw'
    exact ⟨words, hw, hlt, hlength, (Except.ok.inj himage).symm⟩
  · cases hw.symm.trans he

/-- The listing of a session that has assembled a text. -/
theorem listing_assemble (hs : Statement.ofSource source = .ok ss)
    (hp : Assembly.program ss = .ok p) (session : Session) :
    (session.assemble source).2.listing = Assembly.listing p ss := by
  simp only [Session.assemble, hs, Session.assembleStatements, hp]
  rfl

/-- A program that has a listing has an image. -/
theorem image_of_listing {text : String} (hp : Assembly.program ss = .ok p)
    (h : Assembly.listing p ss = .ok text) : ∃ image, p.toImage = .ok image := by
  obtain ⟨lines, hrows, -⟩ := Outcome.bind_eq_ok_iff.1 h
  have hsize : p.size = bodyCount ss := (resolved_of_ok hp).size
  have hcount : p.operations.length = p.size := by simp [operations, size]
  obtain ⟨words, hwords⟩ := words_of_rows hrows (hcount.trans hsize)
  refine ⟨words.flatMap fun (word : Nat) => Word.bytes word, ?_⟩
  rw [toImage, Program.words, hwords]
  rfl

private theorem listed_of_words {words : List Nat} {lines : List String}
    (hlt : ∀ word ∈ words, word < 2 ^ 32) (hlength : lines.length = ss.length)
    (h : ∀ front s back, ss = front ++ s :: back →
      ∃ line, lines[front.length]? = some line ∧ Shows words 0 (bodyCount front) s line) :
    Listed (words.flatMap fun (word : Nat) => Word.bytes word) ss lines := by
  refine ⟨hlength, fun front s back hs hb => ?_, fun front s back hs hb => ?_⟩
  · obtain ⟨line, hline, hshows⟩ := h front s back hs
    obtain ⟨b, hb⟩ := Option.isSome_iff_exists.1 hb
    rw [Shows, hb, Nat.zero_add] at hshows
    obtain ⟨word, hword, rfl⟩ := hshows
    have hdigits := Text.hexWord_padLeft (hlt word (List.mem_of_getElem? hword))
    refine ⟨Text.padLeft '0' 8 (Text.hex word), ?_, ?_⟩
    · rw [storedWord_flatMap hlt hword]
      exact hdigits
    · rw [hline, row_word hdigits]
  · obtain ⟨line, hline, hshows⟩ := h front s back hs
    rw [Shows, hb] at hshows
    rw [hline, hshows, row_blank]

/-- No text of a statement breaks a row. -/
theorem lineFeed_not_mem_of_listed {lines : List String} (h : Listed image ss lines)
    (htext : ∀ s ∈ ss, '\n' ∉ s.text.toList) : ∀ line ∈ lines, '\n' ∉ line.toList := by
  intro line hm
  obtain ⟨k, hk, rfl⟩ := List.getElem_of_mem hm
  have hk' : k < ss.length := by rw [← h.length]; exact hk
  have hsplit : ss = ss.take k ++ ss[k] :: ss.drop (k + 1) := by simp
  have hlength : (ss.take k).length = k := by simp; omega
  have htext := htext ss[k] (List.getElem_mem hk')
  cases hb : ss[k].body with
  | none =>
    have hline := h.label _ _ _ hsplit hb
    rw [hlength, List.getElem?_eq_getElem hk] at hline
    rw [Option.some.inj hline]
    simpa using htext
  | some b =>
    obtain ⟨digits, hdigits, hline⟩ := h.body _ _ _ hsplit (by rw [hb]; rfl)
    rw [hlength, List.getElem?_eq_getElem hk] at hline
    rw [Option.some.inj hline]
    have hindex := lineFeed_not_mem_padLeft 5
      (lineFeed_not_mem_decimal (bodyCount (ss.take k) : Nat))
    simp [hindex, lineFeed_not_mem_hexWord hdigits, htext]

/-- The listing of a source text whose program has an image, cut at its line feeds, is a heading of
two rows and one row for each statement that the grammar derives from the text. -/
theorem ofSource_listing (h : ofSource source = .ok p) (hi : p.toImage = .ok image) :
    ∃ tokens rows ss text lines, Token.ofSource source = .ok tokens ∧
      Statement.Lines rows tokens ∧ Statement.Derives (Text.lines source) rows ss ∧
      Statement.ofSource source = .ok ss ∧
      (∀ session : Session, (session.assemble source).2.listing = .ok text) ∧
      text.toList.splitOn '\n' =
        (["INDEX  WORD      SOURCE", String.ofList (List.replicate 60 '-')] ++ lines).map
          String.toList ∧
      p.size = bodyCount ss ∧ image.length = 4 * p.size ∧ Listed image ss lines := by
  obtain ⟨ss, hss, hp⟩ := Outcome.bind_eq_ok_iff.1 h
  obtain ⟨tokens, ht, hparse⟩ := Outcome.bind_eq_ok_iff.1 hss
  obtain ⟨tokenRows, hlines⟩ := Statement.lines_of_ofSource ht
  have hderives := (Statement.ofTokens_ok_iff hlines).1 hparse
  have hops : ∀ o ∈ p.operations, o.Assembled p.size := by
    simpa [operations] using ofSource_assembled h
  obtain ⟨words, hwords, hlt, hlength, rfl⟩ := words_of_image hops hi
  have hsize : p.size = bodyCount ss := (resolved_of_ok hp).size
  have hcount : p.operations.length = p.size := by simp [operations, size]
  obtain ⟨lines, hrows, hall, hat⟩ := rows_of_words hwords (hcount.trans hsize)
  have hlisted := listed_of_words hlt hall hat
  have htext : ∀ s ∈ ss, '\n' ∉ s.text.toList := by
    intro s hs hm
    obtain ⟨-, first, -, -, hbegins⟩ := Statement.ofSource_beginsAt hss s hs
    rw [hbegins.2] at hm
    exact Text.lineFeed_not_mem_lineAt source _ (Text.mem_of_mem_trim hm)
  have hfree : ∀ line ∈ heading ++ lines, '\n' ∉ line.toList := by
    intro line hm
    rcases List.mem_append.1 hm with hm | hm
    · exact (by decide : ∀ line ∈ heading, '\n' ∉ line.toList) line hm
    · exact lineFeed_not_mem_of_listed hlisted htext line hm
  refine ⟨tokens, tokenRows, ss, "\n".intercalate (heading ++ lines), lines, ht, hlines, hderives,
    hss, fun session => ?_, ?_, hsize, ?_, hlisted⟩
  · rw [listing_assemble hss hp, Assembly.listing, hrows]
    rfl
  · have hbreak : "\n".toList = ['\n'] := rfl
    rw [String.toList_intercalate, hbreak, List.splitOn_intercalate]
    · rfl
    · intro chars hm
      obtain ⟨line, hl, rfl⟩ := List.mem_map.1 hm
      exact hfree line hl
    · simp [heading]
  · rw [length_flatMap_bytes, hlength, hcount]

end Listing

/-- The program of a label on a line of its own, an idle instruction with a comment of two lines
behind it, and a branch back. -/
def idle : Program :=
  ⟨#[{ op := .nop, line := 2 }, { op := .b, imm := some 0, line := 4, label := some "loop" }],
    [("loop", 0)]⟩

theorem ofSource_listing_idle :
    ofSource "loop:\nnop /* idle\n */\nb loop" = .ok idle ∧
    idle.toImage = .ok [0, 0, 0, 104, 255, 255, 255, 151] ∧
    ∃ ss text lines, Statement.ofSource "loop:\nnop /* idle\n */\nb loop" = .ok ss ∧
      (∀ session : Session,
        (session.assemble "loop:\nnop /* idle\n */\nb loop").2.listing = .ok text) ∧
      Listed [0, 0, 0, 104, 255, 255, 255, 151] ss lines := by
  have h : ofSource "loop:\nnop /* idle\n */\nb loop" = .ok idle := by cbv
  have hi : idle.toImage = .ok [0, 0, 0, 104, 255, 255, 255, 151] := by cbv
  obtain ⟨tokens, rows, ss, text, lines, -, -, -, hss, htext, -, -, -, hlisted⟩ :=
    ofSource_listing h hi
  exact ⟨h, hi, ss, text, lines, hss, htext, hlisted⟩

end Program
end MiniRisc
