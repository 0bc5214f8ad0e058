import MiniRisc.Proofs.Assembly.Calls
/-! Sessions that keep label tables in cells. A table is made in a new cell and grows in place while
labels are bound, and a program is handed out with a copy of it. No cell that a program refers to is
written again, so that a program stays what it was when it was handed out. -/
namespace MiniRisc.Assembly

/-- A program as it is handed out, with the cell of its labels. -/
structure Handle where
  instructions : Array Instruction
  labels : Nat

def Handle.read (cells : List LabelTable) (h : Handle) : Program :=
  ⟨h.instructions, cells.getD h.labels []⟩

/-- A session with all cells that it has made. -/
structure Shared where
  cells : List LabelTable := [[]]
  labels : Nat := 0
  program : Option Handle := none
  statements : List Statement := []

namespace Shared

/-- Assembling with cells. What is done before a failure stays done. -/
abbrev Work := EStateM Diagnostic Shared

def keep (table : LabelTable) : Work Nat := do
  let cell := (← get).cells.length
  modify fun s => { s with cells := s.cells ++ [table] }
  return cell

def table (cell : Nat) : Work LabelTable := return (← get).cells.getD cell []

def add (cell : Nat) (e : String × Nat) : Work Unit :=
  modify fun s => { s with cells := s.cells.modify cell (· ++ [e]) }

def bind (cell index : Nat) : List Statement → Work Unit
  | [] => return
  | s :: rest => do
    let index' := if s.body.isSome then index + 1 else index
    match s.label with
    | none => bind cell index' rest
    | some name =>
      if ((← table cell).lookup name).isSome then
        throw ⟨.duplicateLabel name, s.line, s.text⟩
      else
        add cell (name, index)
        bind cell index' rest

def result {α : Type} : Except Diagnostic α → Work α
  | .ok a => return a
  | .error d => throw d

def assembleStatements (ss : List Statement) : Work Handle := do
  modify fun s => { s with program := none }
  let labels ← keep []
  modify fun s => { s with labels, statements := ss }
  bind labels 0 ss
  let instructions ← result (resolve (← table labels) ss)
  let copy ← keep (← table labels)
  modify fun s => { s with program := some ⟨instructions.toArray, copy⟩ }
  return ⟨instructions.toArray, copy⟩

def attempt (input : Input) : Work Handle := do
  modify fun s => { s with program := none }
  assembleStatements (← result input.read)

def view (s : Shared) : Session :=
  ⟨s.cells.getD s.labels [], s.program.map (·.read s.cells), s.statements⟩

def call (s : Shared) : Call → Answer Handle × Shared
  | .assemble input =>
    match (attempt input).run s with
    | .ok handle s => (.assembled (.ok handle), s)
    | .error d s => (.assembled (.error d), s)
  | .listing => (.listed s.view.listing, s)

def calls (s : Shared) : List Call → List (Answer Handle) × Shared
  | [] => ([], s)
  | c :: rest =>
    let behind := calls (s.call c).2 rest
    ((s.call c).1 :: behind.1, behind.2)

section Cells
variable {cells : List LabelTable} {table : LabelTable} {cell : Nat}

private theorem getD_of_extended {later : List LabelTable} (h : cells <+: later)
    (hc : cell < cells.length) : later.getD cell [] = cells.getD cell [] := by
  obtain ⟨more, rfl⟩ := h
  rw [List.getD_eq_getElem?_getD, List.getElem?_append_left hc, List.getD_eq_getElem?_getD]

private theorem getD_last : (cells ++ [table]).getD cells.length [] = table := by
  simp

private theorem modify_last (f : LabelTable → LabelTable) :
    (cells ++ [table]).modify cells.length f = cells ++ [f table] := by
  induction cells with
  | nil => rfl
  | cons c rest ih => simpa using ih

end Cells

section Runs
variable {s : Shared} {cells : List LabelTable} {cell : Nat}

private theorem run_keep (labels : LabelTable) :
    (keep labels).run s = .ok s.cells.length { s with cells := s.cells ++ [labels] } := rfl

private theorem run_table (cell : Nat) : (table cell).run s = .ok (s.cells.getD cell []) s := rfl

private theorem run_add (cell : Nat) (e : String × Nat) :
    (add cell e).run s = .ok () { s with cells := s.cells.modify cell (· ++ [e]) } := rfl

/-- Binding in the last cell makes the table that binding makes of the one it holds. -/
theorem run_bind (index : Nat) (ss : List Statement) (labels : LabelTable)
    (hs : s.cells = cells ++ [labels]) : (bind cells.length index ss).run s =
      match bindLabels labels index ss with
      | (labels, none) => .ok () { s with cells := cells ++ [labels] }
      | (labels, some d) => .error d { s with cells := cells ++ [labels] } := by
  induction ss generalizing s labels index with
  | nil =>
    simp only [bindLabels, ← hs]
    rfl
  | cons t rest ih =>
    cases hl : t.label with
    | none =>
      simp only [bind, bindLabels, hl]
      exact ih _ labels hs
    | some name =>
      simp only [bind, bindLabels, hl, EStateM.run_bind, run_table, hs, getD_last]
      by_cases hk : (labels.lookup name).isSome
      · simp only [hk, ↓reduceIte, ← hs]
        rfl
      · simp only [hk, Bool.false_eq_true, ↓reduceIte, EStateM.run_bind, run_add, hs, modify_last]
        exact ih _ (labels ++ [(name, index)]) rfl

/-- Statements become the program that they are, with a table of its own behind that of the
session; if they are none, the table of the session is left as far as it was bound. -/
theorem run_assembleStatements (s : Shared) (ss : List Statement) : (assembleStatements ss).run s =
    match Assembly.program ss with
    | .ok p =>
      .ok ⟨p.instructions, s.cells.length + 1⟩
        ⟨s.cells ++ [p.labels] ++ [p.labels], s.cells.length,
          some ⟨p.instructions, s.cells.length + 1⟩, ss⟩
    | .error d =>
      .error d ⟨s.cells ++ [(bindLabels [] 0 ss).1], s.cells.length, none, ss⟩ := by
  have hbind := run_bind (s := ⟨s.cells ++ [[]], s.cells.length, none, ss⟩) 0 ss [] rfl
  simp only [assembleStatements, Assembly.program, EStateM.run_bind, EStateM.run_modify, run_keep,
    hbind]
  rcases hlabels : bindLabels [] 0 ss with ⟨labels, _ | d⟩
  · simp only [run_table, getD_last]
    cases hresolve : resolve labels ss with
    | error d => rfl
    | ok instructions =>
      simp [result, Except.map]
  · rfl

/-- An input that cannot be read leaves no program, and all else as it is. -/
theorem run_attempt (s : Shared) (input : Input) : (attempt input).run s =
    match input.read with
    | .ok ss => (assembleStatements ss).run { s with program := none }
    | .error d => .error d { s with program := none } := by
  rw [attempt, EStateM.run_bind, EStateM.run_modify]
  cases input.read <;> rfl

end Runs

structure Valid (s : Shared) : Prop where
  labels : s.labels < s.cells.length
  program (h : Handle) : s.program = some h → h.labels < s.cells.length

/-- What a session with cells has answered and come to, beside the session that it stands for. No
cell is lost or written again, and the programs that are handed out read as those of the other, also
when there are more cells behind. -/
structure Refines (cells : List LabelTable) (answers : List (Answer Handle)) (s : Shared)
    (expected : List (Answer Program)) (session : Session) : Prop where
  valid : s.Valid
  kept : cells <+: s.cells
  view : s.view = session
  answers (later : List LabelTable) : s.cells <+: later →
    answers.map (·.map (·.read later)) = expected

section Refinement
variable {s : Shared} {input : Input} {ss : List Statement} {p : Program} {d : Diagnostic}

private theorem bindLabels_of_program (h : Assembly.program ss = .ok p) :
    bindLabels [] 0 ss = (p.labels, none) := by
  rw [Assembly.program] at h
  split at h
  · cases h
  · rename_i labels hb
    obtain ⟨instructions, -, rfl⟩ := Outcome.map_eq_ok_iff.1 h
    exact hb

private theorem call_of_unread (h : input.read = .error d) :
    s.call (.assemble input) = (.assembled (.error d), { s with program := none }) := by
  rw [call, run_attempt, h]

private theorem call_of_error (h : input.read = .ok ss) (hp : Assembly.program ss = .error d) :
    s.call (.assemble input) = (.assembled (.error d),
      ⟨s.cells ++ [(bindLabels [] 0 ss).1], s.cells.length, none, ss⟩) := by
  rw [call, run_attempt, h]
  dsimp only
  rw [run_assembleStatements, hp]

private theorem call_of_ok (h : input.read = .ok ss) (hp : Assembly.program ss = .ok p) :
    s.call (.assemble input) = (.assembled (.ok ⟨p.instructions, s.cells.length + 1⟩),
      ⟨s.cells ++ [p.labels] ++ [p.labels], s.cells.length,
        some ⟨p.instructions, s.cells.length + 1⟩, ss⟩) := by
  rw [call, run_attempt, h]
  dsimp only
  rw [run_assembleStatements, hp]

theorem call_refines (valid : s.Valid) (c : Call) :
    Refines s.cells [(s.call c).1] (s.call c).2 [(s.view.call c).1] (s.view.call c).2 := by
  cases c with
  | listing => exact ⟨valid, List.prefix_refl _, rfl, fun _ _ => rfl⟩
  | assemble input =>
    rw [Session.call]
    cases h : input.read with
    | error d =>
      rw [call_of_unread h, Session.attempt_of_unread h]
      exact ⟨⟨valid.labels, nofun⟩, List.prefix_refl _, rfl, fun _ _ => rfl⟩
    | ok ss =>
      rw [Session.attempt_of_read h, Session.assembleStatements]
      cases hp : Assembly.program ss with
      | error d =>
        rw [call_of_error h hp]
        refine ⟨⟨by simp, nofun⟩, List.prefix_append .., ?_, fun _ _ => rfl⟩
        rw [view, getD_last]
        rfl
      | ok p =>
        -- The session keeps the first of the new cells, and the program has the second, its copy.
        rw [call_of_ok h hp, bindLabels_of_program hp]
        have hcopy : (s.cells ++ [p.labels] ++ [p.labels]).getD (s.cells.length + 1) [] =
            p.labels := by
          simp
        have hown : (s.cells ++ [p.labels] ++ [p.labels]).getD s.cells.length [] = p.labels := by
          rw [getD_of_extended (List.prefix_append ..) (by simp), getD_last]
        refine ⟨⟨by simp, ?_⟩, ⟨[p.labels, p.labels], by simp⟩, ?_, fun later hlater => ?_⟩
        · rintro _ ⟨⟩
          simp
        · rw [view, hown, Option.map_some, Handle.read, hcopy]
          rfl
        · have hread : Handle.read later ⟨p.instructions, s.cells.length + 1⟩ = p := by
            rw [Handle.read, getD_of_extended hlater (by simp), hcopy]
          simp [Answer.map, Except.map, hread]

private theorem calls_refines (valid : s.Valid) (cs : List Call) :
    Refines s.cells (s.calls cs).1 (s.calls cs).2 (s.view.calls cs).1 (s.view.calls cs).2 := by
  induction cs generalizing s with
  | nil => exact ⟨valid, List.prefix_refl _, rfl, fun _ _ => rfl⟩
  | cons c rest ih =>
    have hfirst := call_refines valid c
    have hrest := ih hfirst.valid
    rw [hfirst.view] at hrest
    refine ⟨hrest.valid, hfirst.kept.trans hrest.kept, hrest.view, fun later hlater => ?_⟩
    have hanswer := hfirst.answers later (hrest.kept.trans hlater)
    rw [Shared.calls, Session.calls, List.map_cons, hrest.answers later hlater]
    exact congrArg (· ++ (Session.calls _ rest).1) hanswer

theorem calls_append (s : Shared) (front back : List Call) :
    (s.calls (front ++ back)).2 = ((s.calls front).2.calls back).2 := by
  induction front generalizing s with
  | nil => rfl
  | cons c rest ih => exact ih (s.call c).2

private theorem valid_new : Valid {} := ⟨Nat.zero_lt_one, nofun⟩

end Refinement
end Shared

namespace Session

/-- Whatever calls there have been, a session has a program unless none was attempted or the last
attempt has failed, and without one its listing is empty. With a program it is as a new session is
behind the last attempt alone; where that has failed, the labels tell how far it came. The programs
that the calls have handed out still read as they were answered after any later calls. -/
theorem history_independent (cs : List Call) :
    ((after cs).program = none ↔ (∀ c ∈ cs, c = .listing) ∨ ∃ earlier input d,
      LastAttempt cs earlier input ∧ ((after earlier).attempt input).1 = .error d) ∧
    ((after cs).program = none → (after cs).listing = .ok "") ∧
    (∀ earlier input, LastAttempt cs earlier input → Behind (after earlier) input (after cs)) ∧
    ∀ later,
      ((Shared.calls {} cs).1.map (·.map (·.read (Shared.calls {} (cs ++ later)).2.cells)) =
        (calls {} cs).1) ∧
      (Shared.calls {} (cs ++ later)).2.view = after (cs ++ later) := by
  refine ⟨?_, fun hnone => by rw [listing, hnone], fun earlier input h => ?_, fun later => ?_⟩
  · rcases lastAttempt_cases cs with hl | ⟨earlier, input, h⟩
    · have hnew : after cs = {} := calls_of_listings hl
      rw [hnew]
      exact iff_of_true rfl (.inl hl)
    · have hbehind := behind_attempt (after earlier) input
      rw [after_lastAttempt h, hbehind.program]
      constructor
      · cases hanswer : ((after earlier).attempt input).1 with
        | ok p => exact nofun
        | error d => exact fun _ => .inr ⟨earlier, input, d, h, hanswer⟩
      · rintro (hl | ⟨earlier', input', d, h', hanswer⟩)
        · cases hl _ h.mem
        · obtain ⟨rfl, rfl⟩ := h.unique h'
          rw [hanswer]
          rfl
  · rw [after_lastAttempt h]
    exact behind_attempt (after earlier) input
  · have hfirst := Shared.calls_refines Shared.valid_new cs
    have hthen := Shared.calls_refines hfirst.valid later
    have hall := Shared.calls_refines Shared.valid_new (cs ++ later)
    refine ⟨?_, hall.view⟩
    rw [Shared.calls_append]
    exact hfirst.answers _ hthen.kept

end Session
end MiniRisc.Assembly
