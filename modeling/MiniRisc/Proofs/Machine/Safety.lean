import MiniRisc.Proofs.Assembly.Flat
import MiniRisc.Proofs.Assembly.Form
import MiniRisc.Proofs.Machine.Fault
import MiniRisc.Proofs.Machine.Invariant
import MiniRisc.Proofs.Statement.Located
import MiniRisc.Proofs.Token.Overlong
/-! Safety of assembled programs: whatever a machine holds and however long it runs, a step of it
has a fault at worst, as long as its streams hold bytes. -/
namespace MiniRisc

namespace Machine
variable {m : Machine}

/-- A step at an action, with streams of bytes, has a fault at worst. -/
theorem step_ne_defect (hb : m.state.console.Binary)
    (actions : ∀ i, m.current? = some i → ∃ a, i.action? = some a) (d : Defect) :
    m.step.1 ≠ .error (.defect d) := by
  intro hd
  cases hi : m.current? with
  | none =>
    rw [step_of_halted hi] at hd
    cases hd
  | some i =>
    obtain ⟨a, ha⟩ := actions i hi
    obtain ⟨trace, journal, hm⟩ := step_of_action hi ha
    rw [hm] at hd
    cases hs : a.apply m.settings.policy m.state with
    | ok state =>
      rw [hs] at hd
      cases hd
    | error t =>
      rw [hs] at hd
      rcases Action.perform_error (Action.apply_eq_error_iff.1 hs) with ⟨c, rfl⟩ | ⟨ht, -⟩ | ⟨ht, -⟩
      · cases hd
      · exact hb.1 ht
      · exact hb.2 ht

theorem Sound.step_ne_defect (h : m.Sound) (d : Defect) : m.step.1 ≠ .error (.defect d) :=
  Machine.step_ne_defect h.binary (fun i hi => h.actions i (mem_of_current? hi)) d

end Machine

namespace Action

/-- The words for a fault have no number in them that is too long to be written. -/
theorem Faults.written {policy : ServicePolicy} {s : State} {a : Action} {cause : Fault.Cause}
    (h : a.Faults policy s cause) (long : Text.NumeralFault) : cause ≠ .numeral long := by
  cases a with
  | compute f rd rs1 source =>
    obtain ⟨-, -, rfl⟩ := h
    exact nofun
  | load rd base displacement | store rs base displacement =>
    rcases h with ⟨-, rfl⟩ | ⟨-, -, rfl⟩ | ⟨-, -, -, rfl⟩ <;> exact nofun
  | serve =>
    obtain ⟨-, -, -, rfl⟩ := h
    exact nofun
  | compare | complement | move | branch | call | ret | idle => cases h

end Action

namespace Machine
variable {m : Machine}

private theorem written_of_fault (actions : ∀ i, m.current? = some i → ∃ a, i.action? = some a)
    {f : Fault}
    (h : m.step.1 = .error (.fault f)) (long : Text.NumeralFault) : f.cause ≠ .numeral long := by
  obtain ⟨-, i, hi, -⟩ := place_of_fault h
  obtain ⟨a, ha⟩ := actions i hi
  exact ((step_eq_fault_iff hi ha).1 h).2.2.written long

end Machine

namespace Program
variable {source : String}

/-- A source text that is no program has a fault of its characters, its grammar or its labels, or a
literal that is too long. -/
theorem ofSource_error {d : Diagnostic} (h : ofSource source = .error d) :
    (∃ fault column, d.cause = .lexical fault column ∧ ∀ long, fault ≠ .numeral long) ∨
      (∃ fault token, d.cause = .grammatical fault token) ∨
      (∃ name, d.cause = .duplicateLabel name ∨ d.cause = .undefinedLabel name) ∨
      ∃ long, d.cause = .numeral long ∧ Token.Overlong source long := by
  rcases Outcome.bind_eq_error_iff.1 h with hs | ⟨ss, -, hp⟩
  · rcases Statement.ofSource_refused hs with ht | ⟨tokens, fault, token, -, -, rfl⟩
    · rcases ofSource_malformed ht with
        ⟨long, rfl, hlong⟩ | ⟨fault, front, c, cs, hshort, -, -, -, rfl⟩
      · exact .inr (.inr (.inr ⟨long, rfl, hlong⟩))
      · exact .inl ⟨fault, _, rfl, hshort⟩
    · exact .inr (.inl ⟨fault, token, rfl⟩)
  · exact .inr (.inr (.inl (Assembly.program_error hp)))

/-- The statements of a source text have their operands where they are looked for. The text has a
fault of its characters, its grammar or its labels, or a literal with too many digits, or it is a
program of well-formed operations. A machine that runs the program fails in no step but by a fault
whose words can be written, whatever its settings, its memory and registers, and the bytes of its
streams. -/
theorem ofSource_safe (source : String) :
    (∀ ss, Statement.ofSource source = .ok ss → ∀ s ∈ ss, ∀ b, s.body = some b → ∀ labels,
      Assembly.resolveFlat labels b.op b.modifier s.line b.operands.toList =
        .ok (Assembly.resolveOperands labels b.op b.modifier s.line b.operands)) ∧
    ((∃ d, ofSource source = .error d ∧
      ((∃ fault column, d.cause = .lexical fault column ∧ ∀ long, fault ≠ .numeral long) ∨
        (∃ fault token, d.cause = .grammatical fault token) ∨
        (∃ name, d.cause = .duplicateLabel name ∨ d.cause = .undefinedLabel name) ∨
        ∃ long, d.cause = .numeral long ∧ Token.Overlong source long)) ∨
    ∃ p, ofSource source = .ok p ∧
      (∀ i ∈ p.instructions, i.toOperation.WellFormed p.size) ∧
      ∀ m : Machine, m.program = p → m.state.console.Binary →
        ∀ n t, (m.after n).step.1 = .error t →
          ∃ f, t = .fault f ∧ ∀ long, f.cause ≠ .numeral long) := by
  refine ⟨fun ss _ s _ b _ labels => Assembly.resolveFlat_toList labels _ _ _ _, ?_⟩
  cases hp : ofSource source with
  | error d => exact .inl ⟨d, rfl, ofSource_error hp⟩
  | ok p =>
    have hform : ∀ i ∈ p.instructions, i.toOperation.WellFormed p.size :=
      fun i hi => (ofSource_assembled hp i hi).wellFormed
    refine .inr ⟨p, rfl, hform, ?_⟩
    rintro m rfl hb n t ht
    have hsound : m.Sound := ⟨fun i hi => (hform i hi).toShaped.action, hb⟩
    have hafter := hsound.after n
    cases t with
    | fault f =>
      have hactions : ∀ i, (m.after n).current? = some i → ∃ a, i.action? = some a :=
        fun i hi => hafter.actions i (Machine.mem_of_current? hi)
      exact ⟨f, rfl, Machine.written_of_fault hactions ht⟩
    | defect d => exact absurd ht (hafter.step_ne_defect d)

/-- A source text with a literal of 4000 hexadecimal digits is no program, and the fault is not of
its characters, its grammar or its labels. -/
theorem ofSource_farHex :
    ofSource (String.ofList (['0', 'x'] ++ List.replicate 4000 'f')) =
      .error { cause := .numeral .writing } := by
  have hread := Token.ofSource_replicate List.mem_cons_self .hexadecimal (by decide)
    (show Text.isDigitOf 16 'f' = true by decide) (by decide) (show 10 ^ 43 < 16 ^ 40 by decide)
  rw [List.nil_append] at hread
  exact ofSource_of_unread hread

end Program
end MiniRisc
