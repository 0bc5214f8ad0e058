import MiniRisc.Proofs.Machine.Twin
/-! Journals of machines. What has been logged reaches nothing but what is logged later. -/
namespace MiniRisc.Machine
variable {m u : Machine}

/-- Machines that are the same, whatever they have logged. -/
def Unlogged (m u : Machine) : Prop := ∃ journal, u = { m with journal }

namespace Unlogged

theorem halted (h : Unlogged m u) : u.halted = m.halted := by
  obtain ⟨journal, rfl⟩ := h
  rfl

theorem note (h : Unlogged m u) (i : Instruction) :
    (∃ d, m.note i = .error d ∧ u.note i = .error d) ∨
      ∃ noted other, m.note i = .ok noted ∧ u.note i = .ok other ∧ Unlogged noted other := by
  obtain ⟨journal, rfl⟩ := h
  unfold Machine.note
  dsimp only
  split
  · cases traceLine m.state.registers i with
    | error d => exact .inl ⟨d, rfl, rfl⟩
    | ok line => exact .inr ⟨_, _, rfl, rfl, _, rfl⟩
  · exact .inr ⟨_, _, rfl, rfl, journal, rfl⟩

theorem step (h : Unlogged m u) : u.step.1 = m.step.1 ∧ Unlogged m.step.2 u.step.2 := by
  have hsame : u.current? = m.current? ∧ u.state = m.state ∧ u.settings = m.settings := by
    obtain ⟨journal, rfl⟩ := h
    exact ⟨rfl, rfl, rfl⟩
  obtain ⟨hcurrent, hstate, hsettings⟩ := hsame
  unfold Machine.step
  rw [hcurrent]
  cases m.current? with
  | none => exact ⟨rfl, h⟩
  | some i =>
    rcases h.note i with ⟨d, hm, hu⟩ | ⟨noted, other, hm, hu, journal, rfl⟩
    · simp only [hm, hu]
      exact ⟨trivial, h⟩
    · simp only [hm, hu, hstate, hsettings]
      cases (Effect.execute m.settings.policy i.toOperation).run m.state with
      | ok _ state => exact ⟨rfl, _, rfl⟩
      | error t state => exact ⟨rfl, _, rfl⟩

theorem runFor (h : Unlogged m u) (n : Nat) :
    (u.runFor n).1 = (m.runFor n).1 ∧ Unlogged (m.runFor n).2 (u.runFor n).2 :=
  runFor_same (fun _ _ => halted) (fun _ _ => step) h n

theorem symm (h : Unlogged m u) : Unlogged u m := by
  obtain ⟨journal, rfl⟩ := h
  exact ⟨m.journal, rfl⟩

/-- Where a run ends, it ends alike whatever was logged before. -/
theorem ends (h : Unlogged m u) {limit : Option Int} {result : Except Trouble Stop}
    (hm : ∃ v, m.Ends limit (result, v)) : ∃ v, u.Ends limit (result, v) := by
  obtain ⟨v, hm⟩ := hm
  generalize hr : (result, v) = r at hm
  cases hm with
  | limited limit =>
    have hstate : u.state = m.state := by
      obtain ⟨journal, rfl⟩ := h
      rfl
    have hrun : (u.runTo limit).1 = result := by
      rw [runTo, hstate, (h.runFor _).1]
      exact (congrArg Prod.fst hr).symm
    exact ⟨(u.runTo limit).2, hrun ▸ .limited limit⟩
  | unlimited n stopped =>
    have hrun : (u.runFor n).1 = result := by
      rw [(h.runFor n).1]
      exact (congrArg Prod.fst hr).symm
    rw [← (h.runFor n).1] at stopped
    exact ⟨(u.runFor n).2, hrun ▸ .unlimited n stopped⟩

/-- A run with the limit asked for, or else the one among the settings, ends alike. -/
theorem ends_iff (h : Unlogged m u) (asked : Option Int) (result : Except Trouble Stop) :
    (∃ v, u.Ends (u.limit? asked) (result, v)) ↔ ∃ v, m.Ends (m.limit? asked) (result, v) := by
  have hlimit : u.limit? asked = m.limit? asked := by
    obtain ⟨journal, rfl⟩ := h
    rfl
  rw [hlimit]
  exact ⟨h.symm.ends, h.ends⟩

end Unlogged
end MiniRisc.Machine
