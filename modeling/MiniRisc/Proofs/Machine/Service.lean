import MiniRisc.Machine.State
/-! Services: when one fails, and that it leaves streams of bytes what they are. -/
namespace MiniRisc
namespace Console

def Binary (c : Console) : Prop := c.input ≠ .text ∧ c.output ≠ .text

theorem Binary.getByte {c c' : Console} {result : Int} (hb : c.Binary)
    (h : c.getByte = .ok (result, c')) : c'.Binary := by
  rw [Console.getByte] at h
  split at h
  · cases h
    exact hb
  · cases h
    exact ⟨by simp, hb.2⟩
  · cases h
    exact ⟨by simp, hb.2⟩
  · cases h

theorem Binary.putByte {c c' : Console} {b : UInt8} {result : Int} (hb : c.Binary)
    (h : c.putByte b = .ok (result, c')) : c'.Binary := by
  rw [Console.putByte] at h
  split at h
  · split at h
    all_goals
      cases h
      exact ⟨hb.1, by simp⟩
  · cases h

private theorem getByte_error {c : Console} {t : Trouble} (h : c.getByte = .error t) :
    c.input = .text ∧ t = .defect .textInput := by
  rw [getByte] at h
  cases hi : c.input with
  | text =>
    rw [hi] at h
    exact ⟨rfl, (Except.error.inj h).symm⟩
  | stream answers =>
    rw [hi] at h
    match answers with
    | [] => cases h
    | none :: rest => cases h
    | some b :: rest => cases h

private theorem putByte_error {c : Console} {b : UInt8} {t : Trouble}
    (h : c.putByte b = .error t) : c.output = .text ∧ t = .defect .textOutput := by
  rw [putByte] at h
  split at h
  · split at h <;> cases h
  · exact ⟨‹_›, (Except.error.inj h).symm⟩

end Console

namespace Service

/-- A service is refused for its number, or the stream that it needs holds text. -/
theorem call_error {policy : ServicePolicy} {number : Int} {s : State} {c : Console}
    {t : Trouble} (h : call policy number s.arguments c = .error t) :
    (number ≠ 0 ∧ number ≠ 1 ∧ policy = .refuse ∧ t = .ofCause (.unknownService number)) ∨
      (c.input = .text ∧ t = .defect .textInput) ∨
        (c.output = .text ∧ t = .defect .textOutput) := by
  unfold call at h
  split at h
  · exact .inr (.inl (Console.getByte_error h))
  · rename_i hzero
    split at h
    · exact .inr (.inr (Console.putByte_error h))
    · rename_i hone
      split at h
      · exact .inl ⟨hzero, hone, rfl, (Except.error.inj h).symm⟩
      · cases h

theorem call_eq_fault_iff {policy : ServicePolicy} {number : Int} {s : State} {c : Console}
    {cause : Fault.Cause} : call policy number s.arguments c = .error (.ofCause cause) ↔
      number ≠ 0 ∧ number ≠ 1 ∧ policy = .refuse ∧ cause = .unknownService number := by
  constructor
  · intro h
    rcases call_error h with ⟨hzero, hone, hpolicy, hcause⟩ | ⟨-, hd⟩ | ⟨-, hd⟩
    · exact ⟨hzero, hone, hpolicy, by simpa [Trouble.ofCause] using hcause⟩
    · cases hd
    · cases hd
  · rintro ⟨hzero, hone, rfl, rfl⟩
    unfold call
    rw [if_neg hzero, if_neg hone]

theorem call_binary {policy : ServicePolicy} {number result : Int} {s : State}
    {c c' : Console} (hb : c.Binary)
    (h : call policy number s.arguments c = .ok (result, c')) : c'.Binary := by
  unfold call at h
  split at h
  · exact hb.getByte h
  · split at h
    · exact hb.putByte h
    · split at h
      · cases h
      · cases h
        exact hb

end Service
end MiniRisc
