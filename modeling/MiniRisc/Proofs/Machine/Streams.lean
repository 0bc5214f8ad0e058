import Mathlib.Data.List.TakeDrop
import MiniRisc.Proofs.Machine.Advance
import MiniRisc.Proofs.Machine.Input
/-! Streams over a whole run. Its reads are given what the input holds, in order and each byte once.
Its writes hand over their bytes in order, and what the output takes of them is behind what it held
before. -/
namespace MiniRisc
namespace Console

/-- What a read gives of the answer of an input: the byte, or minus one. -/
def given : Option UInt8 → Int
  | some b => (b.toNat : Int)
  | none => -1

/-- What a write gives: the byte if the output collects it without failing, else minus one. -/
def confirmed : UInt8 × Reception → Int
  | (b, .collected) => (b.toNat : Int)
  | _ => -1

/-- What an output has of a byte: the byte, unless the output refuses it. -/
def taken? : UInt8 × Reception → Option UInt8
  | (_, .refused) => none
  | (b, _) => some b

private theorem fits_given (answer : Option UInt8) : Word.Fits (given answer) := by
  cases answer with
  | none => exact ⟨by decide, by decide⟩
  | some b =>
    have := b.toNat_lt
    constructor <;> simp only [given] <;> omega

private theorem fits_confirmed (sent : UInt8 × Reception) : Word.Fits (confirmed sent) := by
  obtain ⟨b, reception⟩ := sent
  cases reception with
  | collected => exact fits_given (some b)
  | refused | failedLate => exact fits_given none

variable {c : Console}

private theorem getByte_of_stream {answers : List (Option UInt8)} (h : c.input = .stream answers) :
    c.getByte = .ok (given (answers.headD none), { c with input := .stream answers.tail }) := by
  obtain ⟨input, output, written⟩ := c
  obtain rfl : input = .stream answers := h
  match answers with
  | [] => rfl
  | none :: rest => rfl
  | some b :: rest => rfl

private theorem putByte_of_stream {next : List Reception} {behind : Reception}
    (h : c.output = .stream next behind) (b : UInt8) :
    c.putByte b = .ok (confirmed (b, next.headD behind),
      { c with
        output := .stream next.tail behind
        written := c.written ++ (taken? (b, next.headD behind)).toList }) := by
  rw [putByte, h]
  dsimp only
  generalize next.headD behind = reception
  cases reception <;> simp [confirmed, taken?, failure]

private theorem getByte_output {c' : Console} {result : Int} (h : c.getByte = .ok (result, c')) :
    c'.output = c.output ∧ c'.written = c.written := by
  rw [getByte] at h
  split at h
  · cases h
    exact ⟨rfl, rfl⟩
  · cases h
    exact ⟨rfl, rfl⟩
  · cases h
    exact ⟨rfl, rfl⟩
  · cases h

private theorem putByte_input {c' : Console} {result : Int} {b : UInt8}
    (h : c.putByte b = .ok (result, c')) : c'.input = c.input := by
  rw [putByte] at h
  split at h
  · split at h
    all_goals
      cases h
      rfl
  · cases h

end Console

namespace Service
variable {policy : ServicePolicy} {number result : Int} {args : List Int} {c c' : Console}

private theorem call_input (h : call policy number args c = .ok (result, c')) (hn : number ≠ 0) :
    c'.input = c.input := by
  unfold call at h
  rw [if_neg hn] at h
  split at h
  · split at h
    · cases h
    · exact Console.putByte_input h
  · split at h
    · cases h
    · cases h
      rfl

private theorem call_output (h : call policy number args c = .ok (result, c')) (hn : number ≠ 1) :
    c'.output = c.output ∧ c'.written = c.written := by
  unfold call at h
  rw [if_neg hn] at h
  split at h
  · exact Console.getByte_output h
  · split at h
    · cases h
    · cases h
      exact ⟨rfl, rfl⟩

end Service

namespace Machine
variable {m : Machine}

def serves (m : Machine) : Bool := m.current?.map (·.op) = some .sys

def tells (m : Machine) : Bool := m.serves && m.state.serviceNumber = 1

def spoken (m : Machine) : UInt8 := .ofNat (m.state.registers.value 1 % 2 ^ 8).toNat

def served (m : Machine) : Int := m.step.2.state.registers.value 0

private theorem serves_iff (made : m.program.Made) :
    m.serves = true ↔ ∃ i, m.current? = some i ∧ i.action? = some .serve := by
  simp only [serves, decide_eq_true_iff, Option.map_eq_some_iff]
  constructor
  · rintro ⟨i, hi, hop⟩
    exact ⟨i, hi, (made.serve_iff (mem_of_current? hi)).2 hop⟩
  · rintro ⟨i, hi, ha⟩
    exact ⟨i, hi, (made.serve_iff (mem_of_current? hi)).1 ha⟩

private theorem step_of_served (made : m.program.Made) (hs : m.serves = true) {result : Int}
    {console : Console} (hc : Service.call m.settings.policy m.state.serviceNumber
      m.state.arguments m.state.console = .ok (result, console)) :
    m.step.1 = .ok none ∧
      m.step.2.state = (m.state.answer result console).goto (m.state.registers.pc + 1) := by
  obtain ⟨i, hi, ha⟩ := (serves_iff made).1 hs
  obtain ⟨trace, journal, hm⟩ := step_of_action hi ha
  have happly : Action.serve.apply m.settings.policy m.state =
      .ok ((m.state.answer result console).goto (m.state.registers.pc + 1)) := by
    rw [Action.apply, Action.perform, hc]
    rfl
  rw [hm, happly]
  exact ⟨rfl, rfl⟩

section Steps

/-- A step at a service has called it, or it leaves the state as it is. -/
theorem step_of_serves (made : m.program.Made) (hs : m.serves = true) :
    (∃ result console, Service.call m.settings.policy m.state.serviceNumber m.state.arguments
      m.state.console = .ok (result, console) ∧ m.step.1 = .ok none ∧
      m.step.2.state = (m.state.answer result console).goto (m.state.registers.pc + 1)) ∨
    m.step.2.state = m.state := by
  cases hc : Service.call m.settings.policy m.state.serviceNumber m.state.arguments
      m.state.console with
  | ok answer => exact .inl ⟨answer.1, answer.2, rfl, step_of_served made hs hc⟩
  | error t =>
    obtain ⟨i, hi, ha⟩ := (serves_iff made).1 hs
    obtain ⟨trace, journal, hm⟩ := step_of_action hi ha
    have happly : Action.serve.apply m.settings.policy m.state = .error t := by
      rw [Action.apply, Action.perform, hc]
    rw [hm, happly]
    exact .inr rfl

/-- Other steps leave the console as it is. -/
theorem console_of_not_serves (made : m.program.Made) (hs : m.serves = false) :
    m.step.2.state.console = m.state.console := by
  rcases advance_cases made with ⟨-, i, a, u, target, hi, ha, hperform, hstate⟩ | ⟨-, hstate⟩
  · rw [hstate]
    cases Action.change_of_perform hperform with
    | served hcall =>
      rw [(serves_iff made).2 ⟨i, hi, ha⟩] at hs
      cases hs
    | written | flagged | stored | kept => rfl
  · rw [hstate]

private theorem served_of_call (made : m.program.Made) (hs : m.serves = true) {result : Int}
    {console : Console} (hc : Service.call m.settings.policy m.state.serviceNumber
      m.state.arguments m.state.console = .ok (result, console)) (hfits : Word.Fits result) :
    m.step.1 = .ok none ∧ m.served = result ∧ m.step.2.state.console = console := by
  obtain ⟨hstep, hstate⟩ := step_of_served made hs hc
  have hvalue : m.served = Word.wrap result := by
    rw [served, hstate]
    exact Registers.value_write ..
  exact ⟨hstep, hvalue.trans (Word.wrap_of_fits hfits.1 hfits.2), by rw [hstate]; rfl⟩

private theorem step_of_asks (made : m.program.Made) (h : m.asks = true)
    {answers : List (Option UInt8)} (hin : m.state.console.input = .stream answers) :
    m.step.1 = .ok none ∧ m.served = Console.given (answers.headD none) ∧
      m.step.2.state.console = { m.state.console with input := .stream answers.tail } := by
  obtain ⟨hs, hn⟩ : m.serves = true ∧ m.state.serviceNumber = 0 := by
    simpa [asks, serves] using h
  refine served_of_call made hs ?_ (Console.fits_given _)
  unfold Service.call
  rw [if_pos hn]
  exact Console.getByte_of_stream hin

private theorem step_of_tells (made : m.program.Made) (h : m.tells = true)
    {next : List Console.Reception}
    {behind : Console.Reception} (hout : m.state.console.output = .stream next behind) :
    m.step.1 = .ok none ∧ m.served = Console.confirmed (m.spoken, next.headD behind) ∧
      m.step.2.state.console = { m.state.console with
        output := .stream next.tail behind
        written := m.state.console.written ++
          (Console.taken? (m.spoken, next.headD behind)).toList } := by
  obtain ⟨hs, hn⟩ : m.serves = true ∧ m.state.serviceNumber = 1 := by
    simpa [tells, serves] using h
  refine served_of_call made hs ?_ (Console.fits_confirmed _)
  unfold Service.call
  rw [if_neg (by rw [hn]; decide), if_pos hn]
  exact Console.putByte_of_stream hout m.spoken

/-- Input is taken by reads alone. -/
theorem input_of_not_asks (made : m.program.Made) (h : m.asks = false) :
    m.step.2.state.console.input = m.state.console.input := by
  cases hs : m.serves with
  | false => rw [console_of_not_serves made hs]
  | true =>
    have hn : m.state.serviceNumber ≠ 0 := by
      intro hn
      have : m.asks = true := by simpa [asks, serves, hn] using hs
      rw [h] at this
      cases this
    rcases step_of_serves made hs with ⟨result, console, hc, -, hstate⟩ | hstate
    · rw [hstate]
      exact Service.call_input hc hn
    · rw [hstate]

/-- Output is written by writes alone. -/
theorem output_of_not_tells (made : m.program.Made) (h : m.tells = false) :
    m.step.2.state.console.output = m.state.console.output ∧
      m.step.2.state.console.written = m.state.console.written := by
  cases hs : m.serves with
  | false => rw [console_of_not_serves made hs]; exact ⟨rfl, rfl⟩
  | true =>
    have hn : m.state.serviceNumber ≠ 1 := by
      intro hn
      rw [tells, hs, hn] at h
      cases h
    rcases step_of_serves made hs with ⟨result, console, hc, -, hstate⟩ | hstate
    · rw [hstate]
      exact Service.call_output hc hn
    · rw [hstate]
      exact ⟨rfl, rfl⟩

/-- A service changes one register beside the program counter, and neither flags nor memory. -/
theorem frame_of_serves (made : m.program.Made) (hs : m.serves = true) :
    (∀ r ≠ 0, m.step.2.state.registers.value r = m.state.registers.value r) ∧
      m.step.2.state.registers.equal = m.state.registers.equal ∧
      m.step.2.state.registers.greater = m.state.registers.greater ∧
      m.step.2.state.memory = m.state.memory := by
  rcases step_of_serves made hs with ⟨result, console, -, -, hstate⟩ | hstate
  · rw [hstate]
    exact ⟨fun r hr => Registers.value_write_of_ne _ _ (Ne.symm hr), rfl, rfl, rfl⟩
  · rw [hstate]
    exact ⟨fun _ _ => rfl, rfl, rfl, rfl⟩

/-- A service that there is not is given minus one if it is answered, and no stream is touched. -/
theorem step_of_unknown (made : m.program.Made) (hs : m.serves = true)
    (hzero : m.state.serviceNumber ≠ 0) (hone : m.state.serviceNumber ≠ 1)
    (hp : m.settings.policy = .answer) : m.step.1 = .ok none ∧ m.served = -1 ∧
      m.step.2.state.console = m.state.console := by
  refine served_of_call made hs ?_ (Console.fits_given none)
  unfold Service.call
  rw [if_neg hzero, if_neg hone, hp]
  rfl

/-- Streams of bytes answer every read and every write. -/
theorem executed_of_binary (made : m.program.Made) (hb : m.state.console.Binary)
    (h : m.asks = true ∨ m.tells = true) : m.step.1 = .ok none := by
  rcases h with hasks | htells
  · cases hin : m.state.console.input with
    | text => exact absurd hin hb.1
    | stream answers => exact (step_of_asks made hasks hin).1
  · cases hout : m.state.console.output with
    | text => exact absurd hout hb.2
    | stream next behind => exact (step_of_tells made htells hout).1

end Steps

section Runs

/-- What every step preserves holds before each of a number of steps. -/
theorem preserved_of_passed {P : Machine → Prop} (step : ∀ m, P m → P m.step.2) (h : P m)
    (n : Nat) : ∀ u ∈ m.passed n, P u := by
  induction n generalizing m with
  | zero => exact fun u hu => absurd hu List.not_mem_nil
  | succ n ih =>
    intro u hu
    rcases List.mem_cons.1 hu with rfl | hu
    · exact h
    · exact ih (step m h) u hu

/-- By induction on the number of steps: a read takes the first answer, and no other step takes
any. -/
theorem reads_of_run (made : m.program.Made) {answers : List (Option UInt8)}
    (hin : m.state.console.input = .stream answers) (n : Nat) :
    ((m.passed n).filter asks).map served =
        (answers.takeD ((m.passed n).filter asks).length none).map Console.given ∧
      (m.after n).state.console.input =
        .stream (answers.drop ((m.passed n).filter asks).length) := by
  induction n generalizing m answers with
  | zero => exact ⟨rfl, hin⟩
  | succ n ih =>
    rw [passed, after]
    cases hasks : m.asks with
    | true =>
      obtain ⟨-, hserved, hconsole⟩ := step_of_asks made hasks hin
      obtain ⟨hreads, hinput⟩ := ih (made_step made) (congrArg Console.input hconsole)
      rw [List.filter_cons_of_pos hasks, List.map_cons, hserved, hreads, hinput,
        List.length_cons, List.takeD, List.map_cons, List.drop_tail]
      exact ⟨rfl, rfl⟩
    | false =>
      rw [List.filter_cons_of_neg (by simp [hasks])]
      exact ih (made_step made) ((input_of_not_asks made hasks).trans hin)

private theorem writes_of_run (made : m.program.Made) {next : List Console.Reception}
    {behind : Console.Reception} (hout : m.state.console.output = .stream next behind) (n : Nat) :
    ((m.passed n).filter tells).map served =
        ((((m.passed n).filter tells).map spoken).zip
          (next.takeD ((m.passed n).filter tells).length behind)).map Console.confirmed ∧
      (m.after n).state.console.written.toList = m.state.console.written.toList ++
        ((((m.passed n).filter tells).map spoken).zip
          (next.takeD ((m.passed n).filter tells).length behind)).filterMap Console.taken? ∧
      (m.after n).state.console.output =
        .stream (next.drop ((m.passed n).filter tells).length) behind := by
  induction n generalizing m next with
  | zero => exact ⟨rfl, by simp [passed, after], hout⟩
  | succ n ih =>
    rw [passed, after]
    cases htells : m.tells with
    | true =>
      obtain ⟨-, hserved, hconsole⟩ := step_of_tells made htells hout
      obtain ⟨hwrites, hwritten, houtput⟩ := ih (made_step made) (congrArg Console.output hconsole)
      rw [List.filter_cons_of_pos htells, List.map_cons, hserved, hwrites, hwritten, houtput,
        hconsole, List.length_cons, List.takeD, List.map_cons, List.zip_cons_cons, List.map_cons,
        List.drop_tail]
      refine ⟨rfl, ?_, rfl⟩
      rw [List.filterMap_cons]
      cases Console.taken? (m.spoken, next.headD behind) <;> simp
    | false =>
      rw [List.filter_cons_of_neg (by simp [htells])]
      obtain ⟨houtput, hwritten⟩ := output_of_not_tells made htells
      rw [← hwritten]
      exact ih (made_step made) (houtput.trans hout)

end Runs

/-- Streams neither lose, double nor reorder bytes, however long a run is. Its reads are given the
answers of the input in order, each once, and minus one behind the last, and what is not given stays
unread. Its writes hand the low bytes of a register over in order. The output holds those that it
did not refuse, and a write is given its byte unless the output fails. Reads and writes are always
executed, an unknown service that is answered is given minus one and touches no stream, and no
service changes another register, a flag or the memory. -/
theorem services_stream {m : Machine} (made : m.program.Made) {answers : List (Option UInt8)}
    {next : List Console.Reception} {behind : Console.Reception}
    (hin : m.state.console.input = .stream answers)
    (hout : m.state.console.output = .stream next behind) (n : Nat) :
    let reads := (m.passed n).filter asks
    let writes := (m.passed n).filter tells
    let sent := (writes.map spoken).zip (next.takeD writes.length behind)
    let last := (m.after n).state.console
    (reads.map served = (answers.takeD reads.length none).map Console.given ∧
      last.input = .stream (answers.drop reads.length)) ∧
    (writes.map served = sent.map Console.confirmed ∧
      last.written.toList = m.state.console.written.toList ++ sent.filterMap Console.taken? ∧
      last.output = .stream (next.drop writes.length) behind) ∧
    (∀ u ∈ m.passed n, u.asks = true ∨ u.tells = true → u.step.1 = .ok none) ∧
    ∀ u ∈ m.passed n, u.serves = true →
      (u.state.serviceNumber ≠ 0 → u.state.serviceNumber ≠ 1 → u.settings.policy = .answer →
        u.step.1 = .ok none ∧ u.served = -1 ∧ u.step.2.state.console = u.state.console) ∧
      (∀ r ≠ 0, u.step.2.state.registers.value r = u.state.registers.value r) ∧
      u.step.2.state.registers.equal = u.state.registers.equal ∧
      u.step.2.state.registers.greater = u.state.registers.greater ∧
      u.step.2.state.memory = u.state.memory := by
  have hb : m.state.console.Binary := ⟨by simp [hin], by simp [hout]⟩
  have hpassed := preserved_of_passed
    (P := fun u => u.program.Made ∧ u.state.console.Binary)
    (fun _ h => ⟨made_step h.1, binary_of_made h.1 h.2⟩) ⟨made, hb⟩ n
  refine ⟨reads_of_run made hin n, writes_of_run made hout n, fun u hu => ?_, fun u hu hs => ?_⟩
  · exact executed_of_binary (hpassed u hu).1 (hpassed u hu).2
  · exact ⟨step_of_unknown (hpassed u hu).1 hs, frame_of_serves (hpassed u hu).1 hs⟩

def relay : Program where
  instructions := #[
    { op := .mov, rd := 0, imm := some 0, line := 1 },
    { op := .sys, line := 2 },
    { op := .mov, rd := 1, rs2 := some 0, line := 3 },
    { op := .mov, rd := 0, imm := some 1, line := 4 },
    { op := .sys, line := 5 },
    { op := .b, imm := some 0, line := 6, label := some "again" }]
  labels := [("again", 0)]

private theorem ofSource_relay :
    Program.ofSource "again: mov r0, 0\nsys\nmov r1, r0\nmov r0, 1\nsys\nb again" =
      .ok relay := by
  cbv

/-- The input fails once, and the output fails behind the first byte and refuses the second. -/
def unsteady : Machine := start relay {}
  { input := .stream [some 65, none, some 66]
    output := .stream [.failedLate, .refused] .collected }

theorem services_stream_relay :
    unsteady.program.Made ∧ unsteady.state.console.input = .stream [some 65, none, some 66] ∧
      unsteady.state.console.output = .stream [.failedLate, .refused] .collected ∧
      ((unsteady.passed 24).filter asks).map served = [65, -1, 66, -1] ∧
      ((unsteady.passed 24).filter tells).map served = [-1, -1, 66, 255] ∧
      (unsteady.after 24).state.console.written.toList = [65, 66, 255] := by
  have made : unsteady.program.Made := .inl ⟨_, ofSource_relay⟩
  obtain ⟨⟨hreads, -⟩, ⟨hwrites, hwritten, -⟩, -⟩ := services_stream made rfl rfl 24
  have hasked : ((unsteady.passed 24).filter asks).length = 4 := rfl
  have hspoken : ((unsteady.passed 24).filter tells).map spoken = [65, 255, 66, 255] := rfl
  have htold : ((unsteady.passed 24).filter tells).length = 4 := rfl
  rw [hasked] at hreads
  rw [hspoken, htold] at hwrites hwritten
  exact ⟨made, rfl, rfl, hreads, hwrites, hwritten⟩

end Machine
end MiniRisc
