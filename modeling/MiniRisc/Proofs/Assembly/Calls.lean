import MiniRisc.Proofs.Assembly.Resolution
/-! Calls on an assembly session, in any order: attempts at sources and at statements, those that
fail among them, and listings. What a session is like is settled by its last attempt. -/
namespace MiniRisc.Assembly

inductive Input
  | source (text : String)
  | statements (statements : List Statement)

inductive Call
  | assemble (input : Input)
  | listing

/-- What a call is answered with, where programs are handed out in some form. -/
inductive Answer (α : Type)
  | assembled (result : Except Diagnostic α)
  | listed (result : Except CodeFault String)

def Answer.map {α β : Type} (f : α → β) : Answer α → Answer β
  | assembled result => .assembled (result.map f)
  | listed result => .listed result

def Input.read : Input → Except Diagnostic (List Statement)
  | source text => Statement.ofSource text
  | statements ss => .ok ss

namespace Session

def attempt (s : Session) : Input → Except Diagnostic Program × Session
  | .source text => s.assemble text
  | .statements ss => s.assembleStatements ss

def call (s : Session) : Call → Answer Program × Session
  | .assemble input => (.assembled (s.attempt input).1, (s.attempt input).2)
  | .listing => (.listed s.listing, s)

def calls (s : Session) : List Call → List (Answer Program) × Session
  | [] => ([], s)
  | c :: rest =>
    let behind := calls (s.call c).2 rest
    ((s.call c).1 :: behind.1, behind.2)

def after (cs : List Call) : Session := (calls {} cs).2

end Session

/-- The last attempt among calls, with the calls before it. -/
def LastAttempt (cs earlier : List Call) (input : Input) : Prop :=
  ∃ later, cs = earlier ++ .assemble input :: later ∧ ∀ c ∈ later, c = .listing

theorem LastAttempt.mem {cs earlier : List Call} {input : Input}
    (h : LastAttempt cs earlier input) : .assemble input ∈ cs := by
  obtain ⟨later, rfl, -⟩ := h
  simp

theorem LastAttempt.unique {cs earlier earlier' : List Call} {input input' : Input}
    (h : LastAttempt cs earlier input) (h' : LastAttempt cs earlier' input') :
    earlier = earlier' ∧ input = input' := by
  obtain ⟨later, rfl, hl⟩ := h
  obtain ⟨later', hcs, hl'⟩ := h'
  rcases places_cases hcs with ⟨rfl, hc⟩ | ⟨mid, rfl⟩ | ⟨mid, rfl⟩
  · exact ⟨rfl, Call.assemble.inj hc⟩
  · have hlater : later = mid ++ .assemble input' :: later' := by simpa using hcs
    cases hl (.assemble input') (by simp [hlater])
  · have hlater : later' = mid ++ .assemble input :: later := by simpa using hcs.symm
    cases hl' (.assemble input) (by simp [hlater])

/-- The labels that are left where an attempt fails: those from before if its input cannot be read,
and else those of the statements up to the label that is defined again, or of all of them. -/
inductive Leaves (before : LabelTable) (input : Input) : Diagnostic.Cause → LabelTable → Prop
  | lexical (fault : LexicalFault) (column : Int) :
      Leaves before input (.lexical fault column) before
  | numeral (fault : Text.NumeralFault) : Leaves before input (.numeral fault) before
  | grammatical (fault : SyntaxFault) (token : Token) :
      Leaves before input (.grammatical fault token) before
  | duplicate {front : List Statement} {s : Statement} {back : List Statement} {name : String}
      (read : input.read = .ok (front ++ s :: back)) (repeats : Repeats [] front s name) :
      Leaves before input (.duplicateLabel name) (labelsFrom 0 front)
  | undefined {ss : List Statement} {name : String} (read : input.read = .ok ss)
      (distinct : (definedLabels ss).Nodup) :
      Leaves before input (.undefinedLabel name) (labelsFrom 0 ss)

namespace Session

/-- A session behind its last attempt, and the session before that. With a program it is as a new
one is behind this attempt alone. -/
structure Behind (before : Session) (input : Input) (s : Session) : Prop where
  program : s.program = (before.attempt input).1.toOption
  alike : s.program ≠ none → s = after [.assemble input]
  labels (d : Diagnostic) : (before.attempt input).1 = .error d →
    Leaves before.labels input d.cause s.labels

section Attempt
variable {s : Session} {input : Input} {ss : List Statement} {d : Diagnostic}

theorem attempt_of_read (h : input.read = .ok ss) : s.attempt input = s.assembleStatements ss := by
  cases input with
  | source text =>
    have htext : Statement.ofSource text = .ok ss := h
    rw [attempt, assemble, htext]
  | statements =>
    cases h
    rfl

theorem attempt_of_unread (h : input.read = .error d) :
    s.attempt input = (.error d, { s with program := none }) := by
  cases input with
  | source text =>
    have htext : Statement.ofSource text = .error d := h
    rw [attempt, assemble, htext]
  | statements => cases h

private theorem leaves_of_unread (h : input.read = .error d) (labels : LabelTable) :
    Leaves labels input d.cause labels := by
  cases input with
  | source text =>
    rcases Statement.ofSource_error h with ⟨long, hd, -⟩ | ⟨fault, column, hd⟩ | ⟨fault, token, hd⟩
    · rw [hd]
      exact .numeral long
    · rw [hd]
      exact .lexical fault column
    · rw [hd]
      exact .grammatical fault token
  | statements => cases h

private theorem leaves_of_error (h : input.read = .ok ss) (hp : Assembly.program ss = .error d)
    (labels : LabelTable) : Leaves labels input d.cause (bindLabels [] 0 ss).1 := by
  rcases bindLabels_cases [] 0 ss (by simp) with ⟨hn, hb⟩ | ⟨front, s, back, name, rfl, hr, hb⟩
  · rw [Assembly.program, hb] at hp
    obtain ⟨name, hd⟩ := resolve_error (Outcome.map_eq_error_iff.1 hp)
    rw [hb, hd]
    exact .undefined h (by simpa using hn)
  · rw [Assembly.program, hb] at hp
    cases hp
    rw [hb]
    exact .duplicate h hr

theorem behind_attempt (s : Session) (input : Input) :
    Behind s input (s.attempt input).2 := by
  cases h : input.read with
  | error d =>
    rw [attempt_of_unread h]
    refine ⟨by rw [attempt_of_unread h]; rfl, fun hp => absurd rfl hp, fun e he => ?_⟩
    rw [attempt_of_unread h] at he
    cases he
    exact leaves_of_unread h s.labels
  | ok ss =>
    rw [attempt_of_read h]
    refine ⟨by rw [attempt_of_read h]; rfl, fun _ => ?_, fun e he => ?_⟩
    · change _ = (attempt {} input).2
      rw [attempt_of_read h]
      rfl
    · rw [attempt_of_read h] at he
      exact leaves_of_error h he s.labels

end Attempt

section Calls
variable {s : Session} {cs earlier : List Call} {input : Input}

theorem calls_append (s : Session) (front back : List Call) :
    s.calls (front ++ back) = ((s.calls front).1 ++ ((s.calls front).2.calls back).1,
      ((s.calls front).2.calls back).2) := by
  induction front generalizing s with
  | nil => rfl
  | cons c rest ih => simp only [List.cons_append, calls, ih]

/-- Listings leave a session as it is. -/
theorem calls_of_listings (h : ∀ c ∈ cs, c = .listing) : (s.calls cs).2 = s := by
  induction cs with
  | nil => rfl
  | cons c rest ih =>
    obtain rfl := h c List.mem_cons_self
    exact ih fun d hd => h d (List.mem_cons_of_mem _ hd)

/-- The last attempt alone has made the session what it is. -/
theorem after_lastAttempt (h : LastAttempt cs earlier input) :
    after cs = ((after earlier).attempt input).2 := by
  obtain ⟨later, rfl, hl⟩ := h
  rw [after, calls_append]
  exact calls_of_listings hl

/-- Calls are all listings, or there is a last attempt. -/
theorem lastAttempt_cases (cs : List Call) :
    (∀ c ∈ cs, c = .listing) ∨ ∃ earlier input, LastAttempt cs earlier input := by
  induction cs with
  | nil => exact .inl (by simp)
  | cons c rest ih =>
    rcases ih with hl | ⟨earlier, input, later, rfl, hl⟩
    · cases c with
      | assemble input => exact .inr ⟨[], input, rest, rfl, hl⟩
      | listing =>
        refine .inl fun d hd => ?_
        rcases List.mem_cons.1 hd with rfl | hd
        · rfl
        · exact hl d hd
    · exact .inr ⟨c :: earlier, input, later, rfl, hl⟩

end Calls
end Session
end MiniRisc.Assembly
