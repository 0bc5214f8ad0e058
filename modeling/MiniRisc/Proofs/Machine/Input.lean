import MiniRisc.Proofs.Machine.Next
/-! Input is causal. A run depends on the bytes that it has read and on no others, neither on those
behind them nor on how many there are. -/
namespace MiniRisc

def State.withInput (s : State) (unread : List UInt8) : State :=
  { s with console := { s.console with input := .bytes unread } }

private theorem State.withInput_self {s : State} {unread : List UInt8}
    (h : s.console.input = .bytes unread) : s.withInput unread = s := by
  obtain ⟨registers, memory, input, output, written⟩ := s
  obtain rfl : input = .bytes unread := h
  rfl

section Actions
variable {p : Program} {policy : ServicePolicy} {s : State}

/-- Only reading a byte looks at the input. -/
private theorem call_withInput {number : Int} (h : number ≠ 0) (args : List Int)
    (unread : List UInt8) :
    Service.call policy number args (s.withInput unread).console =
      (Service.call policy number args s.console).map
        (Prod.map id fun console => { console with input := .bytes unread }) := by
  unfold Service.call
  rw [if_neg h, if_neg h]
  split
  · cases args with
    | nil => rfl
    | cons first rest =>
      simp only [Console.putByte, State.withInput]
      cases s.console.output with
      | text => rfl
      | stream next behind =>
        simp only
        cases next.headD behind <;> rfl
  · cases policy <;> rfl

private theorem Action.perform_withInput {a : Action} (unread : List UInt8)
    (h : a = .serve → s.serviceNumber ≠ 0) : a.perform policy (s.withInput unread) =
      (a.perform policy s).map (Prod.map (State.withInput · unread) id) := by
  refine perform_beside id (fun c => { c with input := .bytes unread }) ?_ ?_ ?_
  · exact fun _ _ _ _ => rfl
  · intro rs base displacement _
    rw [Except.map_id]
    rfl
  · exact fun hserve => call_withInput (h hserve) s.arguments unread

/-- What is next leaves an input alone that it does not read from. -/
theorem Program.next_withInput (policy : ServicePolicy) (unread : List UInt8)
    (h : ∀ i, p.fetch? s.registers.pc = some i → i.action? = some .serve → s.serviceNumber ≠ 0) :
    p.next policy (s.withInput unread) =
      Prod.map id (State.withInput · unread) (p.next policy s) := by
  refine next_beside id (fun c => { c with input := .bytes unread }) fun i a hi ha => ?_
  refine Action.perform_withInput unread fun hserve => h i hi ?_
  rw [ha, hserve]

/-- A byte that is read is taken from the input and becomes the result. -/
theorem Program.next_of_read (policy : ServicePolicy) {i : Instruction}
    (hi : p.fetch? s.registers.pc = some i) (ha : i.action? = some .serve)
    (hn : s.serviceNumber = 0) (b : UInt8) (unread : List UInt8) :
    p.next policy (s.withInput (b :: unread)) =
      (.ok none, ((s.withInput unread).write 0 b.toNat).goto (s.registers.pc + 1)) := by
  have hfetch : p.fetch? (s.withInput (b :: unread)).registers.pc = some i := hi
  have hcall : Service.call policy (s.withInput (b :: unread)).serviceNumber
      (s.withInput (b :: unread)).arguments (s.withInput (b :: unread)).console =
        .ok ((b.toNat : Int), (s.withInput unread).console) := by
    have hnumber : (s.withInput (b :: unread)).serviceNumber = 0 := hn
    unfold Service.call
    rw [if_pos hnumber]
    rfl
  simp only [next, hfetch, ha, Action.apply, Action.perform, hcall]
  rfl

end Actions

namespace Machine
variable {m u : Machine}

def asks (m : Machine) : Bool :=
  m.current?.map (·.op) = some .sys && m.state.serviceNumber = 0

def asked : Nat → Machine → Nat
  | 0, _ => 0
  | n + 1, m => m.asks.toNat + asked n m.step.2

private theorem asked_succ (m : Machine) (n : Nat) :
    m.asked (n + 1) = m.asked n + (m.after n).asks.toNat := by
  induction n generalizing m with
  | zero => simp [asked, after]
  | succ n ih =>
    have hstep := ih m.step.2
    rw [asked, hstep, asked, after, Nat.add_assoc]

private theorem asked_le (m : Machine) {k n : Nat} (h : k ≤ n) : m.asked k ≤ m.asked n := by
  induction n with
  | zero => rw [Nat.le_zero.1 h]
  | succ n ih =>
    rcases Nat.lt_or_eq_of_le h with hlt | rfl
    · have := ih (by omega)
      have := m.asked_succ n
      omega
    · exact Nat.le_refl _

private theorem asks_iff (made : m.program.Made) :
    m.asks = true ↔ m.state.serviceNumber = 0 ∧
      ∃ i, m.current? = some i ∧ i.action? = some .serve := by
  simp only [asks, Bool.and_eq_true, decide_eq_true_iff, Option.map_eq_some_iff]
  constructor
  · rintro ⟨⟨i, hi, hop⟩, hn⟩
    exact ⟨hn, i, hi, (made.serve_iff (mem_of_current? hi)).2 hop⟩
  · rintro ⟨hn, i, hi, ha⟩
    exact ⟨⟨i, hi, (made.serve_iff (mem_of_current? hi)).1 ha⟩, hn⟩

/-- Machines that differ in their input alone, behind bytes that both have. -/
structure Forks (shared rest other : List UInt8) (m u : Machine) : Prop where
  program : u.program = m.program
  policy : u.settings.policy = m.settings.policy
  input : m.state.console.input = .bytes (shared ++ rest)
  state : u.state = m.state.withInput (shared ++ other)

namespace Forks
variable {shared rest other : List UInt8}

theorem step (made : m.program.Made) (h : Forks shared rest other m u)
    (enough : m.asks.toNat ≤ shared.length) : u.step.1 = m.step.1 ∧
      Forks (shared.drop m.asks.toNat) rest other m.step.2 u.step.2 := by
  obtain ⟨hresult, hstate⟩ := step_next made
  obtain ⟨hresult', hstate'⟩ := step_next (h.program ▸ made : u.program.Made)
  rw [h.program, h.policy, h.state] at hresult' hstate'
  have hself := State.withInput_self h.input
  suffices hnext : u.step.1 = m.step.1 ∧
      m.step.2.state.console.input = .bytes (shared.drop m.asks.toNat ++ rest) ∧
      u.step.2.state = m.step.2.state.withInput (shared.drop m.asks.toNat ++ other) by
    refine ⟨hnext.1, ?_, ?_, hnext.2.1, hnext.2.2⟩
    · rw [step_program, step_program, h.program]
    · rw [step_settings, step_settings, h.policy]
  cases hasks : m.asks with
  | true =>
    obtain ⟨hn, i, hi, ha⟩ := (asks_iff made).1 hasks
    rw [hasks] at enough
    obtain ⟨b, later, rfl⟩ := List.exists_cons_of_length_pos enough
    have hm := Program.next_of_read m.settings.policy hi ha hn b (later ++ rest)
    have hu := Program.next_of_read m.settings.policy hi ha hn b (later ++ other)
    rw [← List.cons_append] at hm hu
    rw [hself] at hm
    rw [hresult', hstate', hresult, hstate, hm, hu]
    exact ⟨rfl, rfl, rfl⟩
  | false =>
    have hnone : ∀ i, m.program.fetch? m.state.registers.pc = some i →
        i.action? = some .serve → m.state.serviceNumber ≠ 0 := by
      intro i hi ha hn
      rw [(asks_iff made).2 ⟨hn, i, hi, ha⟩] at hasks
      cases hasks
    have hm := Program.next_withInput m.settings.policy (shared ++ rest) hnone
    have hu := Program.next_withInput m.settings.policy (shared ++ other) hnone
    rw [hself] at hm
    rw [hresult', hstate', hresult, hstate, hu]
    refine ⟨rfl, ?_, rfl⟩
    rw [hm]
    rfl

theorem after (made : m.program.Made) (h : Forks shared rest other m u) {n : Nat}
    (enough : m.asked n ≤ shared.length) :
    Forks (shared.drop (m.asked n)) rest other (m.after n) (u.after n) := by
  induction n with
  | zero => exact h
  | succ n ih =>
    rw [asked_succ] at enough ⊢
    have hn := ih (by omega)
    have hstep := (hn.step (made_after made n) (by rw [List.length_drop]; omega)).2
    rwa [List.drop_drop, ← after_succ, ← after_succ] at hstep

end Forks

/-- Input is causal. Take a machine and the same machine with another input, so that both inputs
have and share as many bytes as the first reads in a number of steps. Then each of these steps of
the second comes to the same as that of the first, and before and behind each of them the states
agree but for the bytes that are still unread: those of its own input behind the ones that have
been read. -/
theorem input_causal {m u : Machine} (made : m.program.Made) {input other : List UInt8}
    (hm : m.state.console.input = .bytes input)
    (hu : u = { m with state := m.state.withInput other }) {n : Nat}
    (enough : m.asked n ≤ input.length)
    (shared : other.take (m.asked n) = input.take (m.asked n)) :
    (∀ k < n, (u.after k).step.1 = (m.after k).step.1) ∧
    ∀ k ≤ n, (m.after k).state.console.input = .bytes (input.drop (m.asked k)) ∧
      (u.after k).state = (m.after k).state.withInput (other.drop (m.asked k)) := by
  subst hu
  have hforks : Forks (input.take (m.asked n)) (input.drop (m.asked n)) (other.drop (m.asked n)) m
      { m with state := m.state.withInput other } := by
    refine ⟨rfl, rfl, ?_, ?_⟩
    · rw [List.take_append_drop, hm]
    · rw [← shared, List.take_append_drop]
  have hlength : (input.take (m.asked n)).length = m.asked n := by
    rw [List.length_take]
    omega
  have hdrop : ∀ k ≤ n, ∀ rest, (input.take (m.asked n)).drop (m.asked k) ++ rest =
      (input.take (m.asked n) ++ rest).drop (m.asked k) := fun k hk rest =>
    (List.drop_append_of_le_length (by have := m.asked_le hk; omega)).symm
  constructor
  · intro k hk
    have hk' := m.asked_le (show k + 1 ≤ n from hk)
    rw [asked_succ] at hk'
    refine ((hforks.after made (n := k) (by omega)).step (made_after made k) ?_).1
    rw [List.length_drop]
    omega
  · intro k hk
    have hle := m.asked_le hk
    have hfork := hforks.after made (n := k) (by omega)
    have hinput := hfork.input
    have hstate := hfork.state
    rw [hdrop k hk, List.take_append_drop] at hinput
    rw [hdrop k hk, ← shared, List.take_append_drop] at hstate
    exact ⟨hinput, hstate⟩

def echo : Program where
  instructions := #[
    { op := .sys, line := 1 },
    { op := .mov, rd := 1, rs2 := some 0, line := 2 },
    { op := .mov, imm := some 1, line := 3 },
    { op := .sys, line := 4 }]

private theorem ofSource_echo :
    Program.ofSource "sys\nmov r1, r0\nmov r0, 1\nsys" = .ok echo := by
  cbv

theorem input_causal_echo :
    Program.Made echo ∧ (start echo {} { input := .bytes [65] }).asked 4 = 1 ∧
      ((start echo {} { input := .bytes [65, 66] }).after 4).state =
        ((start echo {} { input := .bytes [65] }).after 4).state.withInput [66] := by
  have made : Program.Made echo := .inl ⟨_, ofSource_echo⟩
  have hasked : (start echo {} { input := .bytes [65] }).asked 4 = 1 := by rfl
  refine ⟨made, hasked, ?_⟩
  have hinput : (start echo {} { input := .bytes [65] }).state.console.input = .bytes [65] := rfl
  have hother : start echo {} { input := .bytes [65, 66] } =
      { start echo {} { input := .bytes [65] } with
        state := (start echo {} { input := .bytes [65] }).state.withInput [65, 66] } := rfl
  have hcausal := input_causal made hinput hother (n := 4) (by rw [hasked]; decide)
    (by rw [hasked]; rfl)
  have hlast := (hcausal.2 4 (by omega)).2
  rwa [hasked] at hlast

end Machine
end MiniRisc
