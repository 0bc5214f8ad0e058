import MiniRisc.Proofs.Token.Reading
/-! Readers that are asked for single tokens, for all tokens, for lines and to start again, in any
order. Taking all tokens moves the cursor that single tokens are read at, so until the next start
there must be none left to read; then every response is told by the tokens of the whole source and
the number of tokens that have been asked for since the last start. -/
namespace MiniRisc

def Scan.answerAt (lines : List String) (scan : Scan) (given : Nat) : Reader.Answer :=
  match scan.tokens[given]?, scan.result lines with
  | some t, _ => .token t
  | none, .error d => if given = scan.tokens.length then .failed d else .exhausted
  | none, .ok _ => .exhausted

private theorem Cursor.answers_ne_nil (cursor : Cursor) (lines : List String) :
    cursor.scan.answers lines ≠ [] := by
  rw [← cursor.scan_next]
  cases cursor.next <;> simp [Step.scan, Scan.answers, Scan.preceded]

namespace Reader

inductive Request
  | restart
  | next
  | takeAll
  | lineAt (number : Int)

inductive Response
  | restarted
  | next (answer : Answer)
  | all (result : Except Diagnostic (List Token))
  | line (text : String)

def respond (r : Reader) : Request → Response × Reader
  | .restart => (.restarted, r.restart)
  | .next => (.next r.next.1, r.next.2)
  | .takeAll => (.all r.takeAll.1, r.takeAll.2)
  | .lineAt number => (.line (r.lineAt number), r)

def responses (r : Reader) : List Request → List Response
  | [] => []
  | request :: rest => (r.respond request).1 :: responses (r.respond request).2 rest

def asked (r : Reader) (requests : List Request) : Reader :=
  requests.foldl (fun r request => (r.respond request).2) r

/-- What has been asked since the last start: how many tokens, and whether for all of them too. -/
structure Course where
  given : Nat := 0
  displaced : Bool := false

namespace Course

def behind (c : Course) : Request → Course
  | .restart => {}
  | .next => { c with given := c.given + 1 }
  | .takeAll => { c with displaced := true }
  | .lineAt _ => c

def response (source : String) (c : Course) : Request → Response
  | .restart => .restarted
  | .next => .next ((Scan.ofSource source).answerAt (Text.lines source) c.given)
  | .takeAll => .all (Token.ofSource source)
  | .lineAt number => .line (Text.lineAt (Text.lines source) number)

def responses (source : String) (c : Course) : List Request → List Response
  | [] => []
  | request :: rest => c.response source request :: responses source (c.behind request) rest

/-- Behind all tokens together no single one may be asked for, unless a number of answers have all
been given before. -/
def Permits (answers : Nat) (c : Course) : Request → Prop
  | .next => c.displaced = true → answers ≤ c.given
  | _ => True

instance (answers : Nat) (c : Course) (request : Request) :
    Decidable (c.Permits answers request) := by
  cases request <;> unfold Permits <;> infer_instance

def PermitsAll (answers : Nat) (c : Course) : List Request → Prop
  | [] => True
  | request :: rest => c.Permits answers request ∧ PermitsAll answers (c.behind request) rest

end Course

abbrev allAnswers (source : String) : List Answer :=
  (Scan.ofSource source).answers (Text.lines source)

/-- A reader of a source on a course: it has the answers ahead that have not been given, unless its
cursor has been moved, and is done once there are none. -/
structure On (source : String) (c : Course) (r : Reader) : Prop where
  lines : r.lines = Text.lines source
  text : r.text = Text.foldNewlines source.toList
  ahead : c.displaced = false →
    c.given < (allAnswers source).length →
      ∃ cursor, r.GoesOn cursor ∧ cursor.scan.answers (Text.lines source) =
        (allAnswers source).drop c.given
  done : (allAnswers source).length ≤ c.given → r.phase = .done

section Scans
variable (lines : List String) (scan : Scan)

/-- The answer after others is the one at their number in the list of all. -/
theorem getD_answers (given : Nat) :
    (scan.answers lines)[given]?.getD .exhausted = scan.answerAt lines given := by
  obtain ⟨tokens, fault, stop⟩ := scan
  rw [Scan.answers, Scan.answerAt]
  dsimp only
  by_cases hlt : given < tokens.length
  · rw [List.getElem?_append_left (by simpa using hlt), List.getElem?_map,
      List.getElem?_eq_getElem hlt]
    rfl
  · have hnone : tokens[given]? = none := List.getElem?_eq_none (by omega)
    rw [List.getElem?_append_right (by simpa using hlt), hnone, List.length_map]
    cases fault with
    | none => rfl
    | some f =>
      by_cases hgiven : given = tokens.length
      · simp [Scan.result, hgiven]
      · have hbehind : given - tokens.length ≠ 0 := by omega
        simp [Scan.result, hgiven, hbehind]

end Scans

section Steps
variable {source : String} {c : Course} {r : Reader}

private theorem next_kept (r : Reader) : r.next.2.lines = r.lines ∧ r.next.2.text = r.text := by
  have hread (r : Reader) : r.read.2.lines = r.lines ∧ r.read.2.text = r.text := by
    rw [read]
    split
    · exact ⟨rfl, rfl⟩
    · exact ⟨rfl, rfl⟩
    · split <;> exact ⟨rfl, rfl⟩
  rw [next]
  split
  · exact ⟨rfl, rfl⟩
  · exact hread r
  · exact ⟨rfl, rfl⟩
  · exact hread _

private theorem respond_kept (r : Reader) (request : Request) :
    (r.respond request).2.lines = r.lines ∧ (r.respond request).2.text = r.text := by
  cases request with
  | next => exact next_kept r
  | _ => exact ⟨rfl, rfl⟩

private theorem asked_kept (r : Reader) (requests : List Request) :
    (r.asked requests).lines = r.lines ∧ (r.asked requests).text = r.text := by
  induction requests generalizing r with
  | nil => exact ⟨rfl, rfl⟩
  | cons request rest ih =>
    obtain ⟨hlines, htext⟩ := r.respond_kept request
    obtain ⟨hl, ht⟩ := ih (r.respond request).2
    exact ⟨hl.trans hlines, ht.trans htext⟩

private theorem restart_eq (hl : r.lines = Text.lines source)
    (ht : r.text = Text.foldNewlines source.toList) : r.restart = ofSource source := by
  rw [restart, ofSource, hl, ht]

private theorem takeAll_eq (hl : r.lines = Text.lines source)
    (ht : r.text = Text.foldNewlines source.toList) : r.takeAll.1 = Token.ofSource source := by
  rw [takeAll, hl, ht]
  rfl

private theorem on_ofSource (source : String) : On source {} (ofSource source) where
  lines := rfl
  text := rfl
  ahead _ _ := ⟨_, .ready .., rfl⟩
  done hle := absurd (List.eq_nil_of_length_eq_zero (Nat.le_zero.1 hle))
    (Cursor.answers_ne_nil ⟨Text.foldNewlines source.toList, {}⟩ (Text.lines source))

/-- A token that may be asked for is the next of the source. -/
theorem On.next (h : On source c r)
    (hp : c.Permits (allAnswers source).length .next) :
    r.next.1 = (Scan.ofSource source).answerAt (Text.lines source) c.given ∧
      On source (c.behind .next) r.next.2 := by
  rw [← getD_answers]
  obtain ⟨hlines, htext⟩ := r.next_kept
  have hlines := hlines.trans h.lines
  have htext := htext.trans h.text
  by_cases hlt : c.given < (allAnswers source).length
  · have hstays : c.displaced = false :=
      Bool.eq_false_iff.2 fun hd => Nat.not_le_of_lt hlt (hp hd)
    obtain ⟨cursor, hgoesOn, hahead⟩ := h.ahead hstays hlt
    obtain ⟨rest, hanswers, -, hrest⟩ := next_of_goesOn hgoesOn
    rw [h.lines, hahead, List.drop_eq_getElem_cons hlt] at hanswers
    obtain ⟨hfirst, rfl⟩ := List.cons.inj hanswers
    refine ⟨by rw [List.getElem?_eq_getElem hlt, hfirst]; rfl, hlines, htext, ?_, ?_⟩
    · intro _ hmore
      rcases hrest with ⟨hnone, -⟩ | ⟨after, hgoesOn, hafter⟩
      · exact absurd (List.drop_eq_nil_iff.1 hnone) (Nat.not_le_of_lt hmore)
      · exact ⟨after, hgoesOn, h.lines ▸ hafter⟩
    · intro hall
      rcases hrest with ⟨-, hdone⟩ | ⟨after, -, hafter⟩
      · exact hdone
      · exact absurd (hafter.trans (List.drop_eq_nil_iff.2 hall)) (after.answers_ne_nil r.lines)
  · have hnext : r.next = (.exhausted, r) := by rw [Reader.next, h.done (by omega)]
    rw [hnext, List.getElem?_eq_none (Nat.le_of_not_lt hlt)]
    refine ⟨rfl, h.lines, h.text, fun _ hmore => ?_, fun _ => h.done (by omega)⟩
    exact absurd (Nat.lt_of_succ_lt hmore) hlt

/-- A request that is permitted is answered as the source tells, and what is asked behind it is. -/
theorem On.respond {request : Request} (h : On source c r)
    (hp : c.Permits (allAnswers source).length request) :
    (r.respond request).1 = c.response source request ∧
      On source (c.behind request) (r.respond request).2 := by
  cases request with
  | restart =>
    refine ⟨rfl, ?_⟩
    rw [Reader.respond, restart_eq h.lines h.text]
    exact on_ofSource source
  | next => exact ⟨congrArg Response.next (h.next hp).1, (h.next hp).2⟩
  | takeAll =>
    exact ⟨congrArg Response.all (takeAll_eq h.lines h.text), h.lines, h.text, (nomatch ·), h.done⟩
  | lineAt number =>
    refine ⟨?_, h⟩
    rw [Reader.respond, Course.response, lineAt, h.lines]

private theorem On.responses (h : On source c r) {requests : List Request}
    (hp : c.PermitsAll (allAnswers source).length requests) :
    r.responses requests = c.responses source requests := by
  induction requests generalizing r c with
  | nil => rfl
  | cons request rest ih =>
    obtain ⟨hresponse, hbehind⟩ := h.respond hp.1
    rw [Reader.responses, Course.responses, hresponse, ih hbehind hp.2]

/-- A reader answers requests as its source tells: every token in order, then the fault that all
tokens together are refused for, if there is one, and nothing more from then on; and so again behind
every start. Starting and taking all tokens are the same whatever has been asked before. -/
theorem requests_answered (source : String) {requests : List Request}
    (h : Course.PermitsAll (allAnswers source).length {} requests) :
    (ofSource source).responses requests = Course.responses source {} requests ∧
    ∀ others, ((ofSource source).asked others).restart = ofSource source ∧
      ((ofSource source).asked others).takeAll.1 = Token.ofSource source := by
  refine ⟨(on_ofSource source).responses h, fun others => ?_⟩
  obtain ⟨hlines, htext⟩ := (ofSource source).asked_kept others
  exact ⟨restart_eq hlines htext, takeAll_eq hlines htext⟩

end Steps

def strayMark : Diagnostic := .lexical (.strayCharacter '#') ⟨2, 1⟩ "#"

theorem requests_answered_stray :
    Course.PermitsAll (allAnswers "b\n#").length {}
      [.next, .takeAll, .lineAt 2, .restart, .next, .next, .next, .takeAll, .next] ∧
    (ofSource "b\n#").responses
        [.next, .takeAll, .lineAt 2, .restart, .next, .next, .next, .takeAll, .next] =
      [.next (.token ⟨.name "b", ⟨1, 1⟩⟩), .all (.error strayMark), .line "#", .restarted,
        .next (.token ⟨.name "b", ⟨1, 1⟩⟩), .next (.token ⟨.lineEnd, ⟨1, 2⟩⟩),
        .next (.failed strayMark), .all (.error strayMark), .next .exhausted] := by
  have hlength : (allAnswers "b\n#").length = 3 := by cbv
  have h : Course.PermitsAll (allAnswers "b\n#").length {}
      [.next, .takeAll, .lineAt 2, .restart, .next, .next, .next, .takeAll, .next] := by
    rw [hlength]
    simp [Course.PermitsAll, Course.Permits, Course.behind]
  refine ⟨h, (requests_answered "b\n#" h).1.trans ?_⟩
  cbv

end Reader
end MiniRisc
