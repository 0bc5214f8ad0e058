import MiniRisc.Proofs.Machine.Advance
import MiniRisc.Proofs.Machine.Tracing
/-! Runs to a limit are steps one after another, and a run that has stopped can be resumed. The
limit counts the steps since the start, so that it does not matter in how many runs they are made.
-/
namespace MiniRisc.Machine

structure Untraced (m : Machine) : Prop where
  made : m.program.Made
  binary : m.state.console.Binary
  silent : m.tracing = false

/-- What steps come to that are made until the machine has halted, the limit on steps is reached or
a step fails, which is looked at in this order before each step. -/
inductive Iterates (limit : Int) : Machine → Except Trouble Stop → Machine → Prop
  | halted {m : Machine} (halted : m.halted = true) : Iterates limit m (.ok .halted) m
  | limited {m : Machine} (running : m.halted = false)
      (reached : limit ≤ m.state.registers.steps) : Iterates limit m (.ok .limitReached) m
  | failed {m u : Machine} {t : Trouble} (running : m.halted = false)
      (below : m.state.registers.steps < limit) (step : m.step = (.error t, u)) :
      Iterates limit m (.error t) u
  | stepped {m u v : Machine} {result : Except Trouble Stop} (running : m.halted = false)
      (below : m.state.registers.steps < limit) (step : m.step = (.ok none, u))
      (rest : Iterates limit u result v) : Iterates limit m result v

section Steps
variable {m u : Machine} {i : Instruction} {t : Trouble}

/-- A service that fails is an unknown one, and nothing is logged of it. -/
theorem notices_of_failed (made : m.program.Made) (hb : m.state.console.Binary)
    (hi : m.current? = some i) (h : m.step.1 = .error t) : m.notices i = [] := by
  unfold notices
  split
  · rename_i hop
    have ha := (made.serve_iff (mem_of_current? hi)).2 hop
    obtain ⟨trace, journal, hm⟩ := step_of_action hi ha
    cases hs : Action.serve.apply m.settings.policy m.state with
    | ok state =>
      rw [hm, hs] at h
      cases h
    | error trouble =>
      have hperform := Action.apply_eq_error_iff.1 hs
      rw [Action.perform] at hperform
      split at hperform
      · cases hperform
      · rename_i hcall
        rcases Service.call_error hcall with ⟨hzero, hone, hpolicy, -⟩ | ⟨hin, -⟩ | ⟨hout, -⟩
        · unfold Service.notices
          rw [if_neg (by simp [hzero, hone]), hpolicy]
        · exact absurd hin hb.1
        · exact absurd hout hb.2
  · rfl

namespace Untraced

theorem step (h : m.Untraced) : m.step.2.Untraced where
  made := made_step h.made
  binary := binary_of_made h.made h.binary
  silent := m.step_tracing.trans h.silent

/-- A step that fails leaves nothing behind. -/
theorem step_of_error (h : m.Untraced) (ht : m.step.1 = .error t) : m.step = (.error t, m) := by
  cases hi : m.current? with
  | none =>
    rw [step_of_halted hi] at ht
    cases ht
  | some i =>
    have hnotices := notices_of_failed h.made h.binary hi ht
    have hn := note_of_silent h.silent i
    cases he : (Effect.execute m.settings.policy i.toOperation).run m.state with
    | ok u state =>
      rw [step_of_execute_ok hi hn he] at ht
      cases ht
    | error trouble state =>
      rw [step_of_execute_error hi hn he, hnotices, Array.appendList_nil] at ht ⊢
      rw [show locate m.state.registers.pc i.line trouble = t from Except.error.inj ht]

theorem failed (h : m.Untraced) (hs : m.step = (.error t, u)) : u = m :=
  congrArg Prod.snd (hs.symm.trans (h.step_of_error (congrArg Prod.fst hs)))

/-- A step that does not fail is counted. -/
theorem stepped (h : m.Untraced) (hs : m.step = (.ok none, u)) :
    u.Untraced ∧ u.state.registers.steps = m.state.registers.steps + 1 := by
  have hsteps := steps_step h.made
  have hadvances : m.advances = true := by rw [advances, hs]
  rw [hadvances, hs] at hsteps
  have hnext := h.step
  rw [hs] at hnext
  exact ⟨hnext, hsteps⟩

private theorem step_cases (h : m.Untraced) (running : m.halted = false) :
    (∃ t, m.step = (.error t, m)) ∨ ∃ u, m.step = (.ok none, u) := by
  have hstepped := m.stepped
  generalize hs : m.step = result at hstepped ⊢
  cases hstepped with
  | halted current =>
    rw [halted_eq_true_iff.2 current] at running
    cases running
  | unnoted _ note =>
    rw [note_of_silent h.silent] at note
    cases note
  | executed trace journal => exact .inr ⟨_, rfl⟩
  | failed => exact .inl ⟨_, congrArg _ (h.failed hs)⟩

end Untraced
end Steps

section Runs
variable {m u v : Machine} {limit : Int} {t : Trouble} {result : Except Trouble Stop}

private theorem runTo_of_halted (h : m.halted = true) : m.runTo limit = (.ok .halted, m) := by
  rw [runTo]
  exact runFor_of_halted h _

private theorem runTo_of_limited (running : m.halted = false)
    (reached : limit ≤ m.state.registers.steps) : m.runTo limit = (.ok .limitReached, m) := by
  rw [runTo, Int.toNat_of_nonpos (by omega), runFor, running]
  rfl

private theorem runTo_of_failed (running : m.halted = false)
    (below : m.state.registers.steps < limit)
    (step : m.step = (.error t, u)) : m.runTo limit = (.error t, u) := by
  obtain ⟨n, hn⟩ : ∃ n, (limit - m.state.registers.steps).toNat = n + 1 :=
    ⟨(limit - m.state.registers.steps).toNat - 1, by omega⟩
  rw [runTo, hn, runFor_of_error running (congrArg Prod.fst step), step]

private theorem runTo_of_stepped (running : m.halted = false)
    (below : m.state.registers.steps < limit) (step : m.step = (.ok none, u))
    (counted : u.state.registers.steps = m.state.registers.steps + 1) :
    m.runTo limit = u.runTo limit := by
  have hn : (limit - m.state.registers.steps).toNat =
      (limit - u.state.registers.steps).toNat + 1 := by omega
  rw [runTo, hn, runFor_of_ok running (congrArg Prod.fst step), step]
  rfl

theorem Iterates.runTo (h : m.Untraced) (hi : Iterates limit m result u) :
    m.runTo limit = (result, u) := by
  induction hi with
  | halted halted => exact runTo_of_halted halted
  | limited running reached => exact runTo_of_limited running reached
  | failed running below step => exact runTo_of_failed running below step
  | stepped running below step rest ih =>
    obtain ⟨hnext, hcount⟩ := h.stepped step
    rw [runTo_of_stepped running below step hcount]
    exact ih hnext

/-- By induction on how far the limit is. -/
theorem iterates_runTo (h : m.Untraced) (limit : Int) :
    Iterates limit m (m.runTo limit).1 (m.runTo limit).2 := by
  induction hn : (limit - m.state.registers.steps).toNat generalizing m with
  | zero =>
    cases hm : m.halted with
    | true =>
      rw [runTo_of_halted hm]
      exact .halted hm
    | false =>
      have reached : limit ≤ m.state.registers.steps := by omega
      rw [runTo_of_limited hm reached]
      exact .limited hm reached
  | succ n ih =>
    cases hm : m.halted with
    | true =>
      rw [runTo_of_halted hm]
      exact .halted hm
    | false =>
      have below : m.state.registers.steps < limit := by omega
      rcases h.step_cases hm with ⟨t, hs⟩ | ⟨u, hs⟩
      · rw [runTo_of_failed hm below hs]
        exact .failed hm below hs
      · obtain ⟨hnext, hcount⟩ := h.stepped hs
        rw [runTo_of_stepped hm below hs hcount]
        exact .stepped hm below hs (ih hnext (by omega))

private theorem runTo_eq_iff (h : m.Untraced) :
    m.runTo limit = (result, u) ↔ Iterates limit m result u := by
  refine ⟨fun he => ?_, Iterates.runTo h⟩
  have hi := iterates_runTo h limit
  rwa [he] at hi

/-- Where steps end: behind the program, at the limit, or at an instruction that fails again. -/
theorem Iterates.ends (h : m.Untraced) (hi : Iterates limit m result u) :
    (result = .ok .halted ∧ u.halted = true) ∨ (result = .ok .limitReached ∧ u.halted = false) ∨
      ∃ t, result = .error t ∧ u.halted = false ∧ u.state.registers.steps < limit ∧
        u.step = (.error t, u) := by
  induction hi with
  | halted halted => exact .inl ⟨rfl, halted⟩
  | limited running => exact .inr (.inl ⟨rfl, running⟩)
  | @failed m u t running below step =>
    obtain rfl := h.failed step
    exact .inr (.inr ⟨t, rfl, running, below, step⟩)
  | stepped running below step rest ih => exact ih (h.stepped step).1

/-- No instruction is executed at the limit. -/
theorem Iterates.steps_le (h : m.Untraced) (hi : Iterates limit m result u) :
    (u.state.registers.steps : Int) ≤ max limit m.state.registers.steps := by
  induction hi with
  | halted | limited => exact Int.le_max_right ..
  | failed running below step =>
    rw [h.failed step]
    exact Int.le_max_right ..
  | stepped running below step rest ih =>
    obtain ⟨hnext, hcount⟩ := h.stepped step
    have := ih hnext
    omega

/-- Where one run has ended, a run to a limit further on comes to what it comes to from the
beginning. -/
theorem Iterates.resume {other : Int} (h : m.Untraced) (hi : Iterates limit m result u)
    (hle : limit ≤ other) : u.runTo other = m.runTo other := by
  induction hi with
  | halted | limited => rfl
  | failed running below step => rw [h.failed step]
  | stepped running below step rest ih =>
    obtain ⟨hnext, hcount⟩ := h.stepped step
    rw [ih hnext, ← runTo_of_stepped running (by omega) step hcount]

end Runs

/-- A run to a limit is steps one after another. It has halted if and only if the machine has, and
else it is at the limit, unless a step fails; and at the limit no instruction is executed. Behind a
run to a limit, one to a limit further on comes to the same as it alone, and if the first has failed
the second fails for the same reason and changes nothing. -/
theorem run_resumes {m : Machine} (made : m.program.Made) (binary : m.state.console.Binary)
    (silent : m.tracing = false) :
    (∀ limit result u, m.runTo limit = (result, u) ↔ Iterates limit m result u) ∧
    (∀ limit, ((∃ t, (m.runTo limit).1 = .error t) ∨
        (m.runTo limit).1 = .ok (if (m.runTo limit).2.halted then .halted else .limitReached)) ∧
      ((m.runTo limit).1 = .ok .halted ↔ (m.runTo limit).2.halted = true) ∧
      (limit ≤ m.state.registers.steps → (m.runTo limit).2 = m) ∧
      ((m.runTo limit).2.state.registers.steps : Int) ≤ max limit m.state.registers.steps) ∧
    ∀ first second, first ≤ second → (m.runTo first).2.runTo second = m.runTo second ∧
      ∀ t, (m.runTo first).1 = .error t →
        (m.runTo first).2.runTo second = (.error t, (m.runTo first).2) := by
  have h : m.Untraced := ⟨made, binary, silent⟩
  refine ⟨fun limit result u => runTo_eq_iff h, fun limit => ?_, fun first second hle => ?_⟩
  · have hi := iterates_runTo h limit
    have hends := hi.ends h
    refine ⟨?_, ?_, fun hle => ?_, hi.steps_le h⟩
    · rcases hends with ⟨hr, hu⟩ | ⟨hr, hu⟩ | ⟨t, hr, -⟩
      · exact .inr (by rw [hr, hu]; rfl)
      · exact .inr (by rw [hr, hu]; rfl)
      · exact .inl ⟨t, hr⟩
    · rcases hends with ⟨hr, hu⟩ | ⟨hr, hu⟩ | ⟨t, hr, hu, -⟩ <;> simp [hr, hu]
    · cases hm : m.halted with
      | true => rw [runTo_of_halted hm]
      | false => rw [runTo_of_limited hm hle]
  · have hi := iterates_runTo h first
    refine ⟨hi.resume h hle, fun t ht => ?_⟩
    rcases hi.ends h with ⟨hr, -⟩ | ⟨hr, -⟩ | ⟨other, hr, running, below, step⟩
    · cases hr.symm.trans ht
    · cases hr.symm.trans ht
    · cases hr.symm.trans ht
      exact runTo_of_failed running (by omega) step

theorem run_resumes_countdown_stray :
    (Program.Made Program.countdown ∧ (start Program.countdown {} {}).state.console.Binary ∧
      ((start Program.countdown {} {}).runTo 2).1 = .ok .limitReached ∧
      (((start Program.countdown {} {}).runTo 2).2.runTo 3).1 = .ok .halted) ∧
    Program.Made moveAndStray ∧ (start moveAndStray {} {}).state.console.Binary ∧
      ((start moveAndStray {} {}).runTo 2).1 = .error (.fault ⟨.unaligned 2, 1, 2⟩) ∧
      ((start moveAndStray {} {}).runTo 2).2.runTo 9 =
        (.error (.fault ⟨.unaligned 2, 1, 2⟩), ((start moveAndStray {} {}).runTo 2).2) := by
  have hcount : Program.Made Program.countdown := .inl ⟨_, Program.ofSource_countdown⟩
  have hstray : Program.Made moveAndStray := .inl ⟨_, ofSource_moveAndStray⟩
  have hb : (start Program.countdown {} {}).state.console.Binary := ⟨by decide, by decide⟩
  have hb' : (start moveAndStray {} {}).state.console.Binary := ⟨by decide, by decide⟩
  have hresume := (run_resumes hcount hb rfl).2.2 2 3 (by decide)
  have hagain := (run_resumes hstray hb' rfl).2.2 2 9 (by decide)
  refine ⟨⟨hcount, hb, rfl, ?_⟩, hstray, hb', rfl, hagain.2 _ rfl⟩
  rw [hresume.1]
  rfl

end MiniRisc.Machine
