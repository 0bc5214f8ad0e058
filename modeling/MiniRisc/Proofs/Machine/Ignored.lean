import MiniRisc.Proofs.Instruction.Ignored
import MiniRisc.Proofs.Machine.Next
import MiniRisc.Proofs.Machine.Twin
/-! Machines that run images whose words differ in bits that executing them ignores. They go through
the same states and have the same faults. -/
namespace MiniRisc

/-- Decoded operations of the same action are executed alike, also if they are of none. -/
theorem Effect.run_execute_congr {o o' : Operation} {word other : Int} (hd : o.Decoded word)
    (hd' : o'.Decoded other) (h : o'.action? = o.action?) (policy : ServicePolicy) (s : State) :
    (Effect.execute policy o').run s = (Effect.execute policy o).run s := by
  cases ha : o.action? with
  | some a => rw [run_execute policy ha, run_execute policy (h.trans ha)]
  | none =>
    have lacks {o : Operation} {word : Int} (hd : o.Decoded word) (ha : o.action? = none) :
        o.LacksDisplacement := by
      by_contra hl
      obtain ⟨a, hsome⟩ := hd.action hl
      cases hsome.symm.trans ha
    rw [run_execute_of_lacks hd (lacks hd ha),
      run_execute_of_lacks hd' (lacks hd' (h.trans ha))]

namespace Program
variable {p q : Program}

/-- Programs whose instructions are executed alike, one by one, and have the same lines. -/
def Interchangeable (p q : Program) : Prop :=
  ∀ pc, (p.fetch? pc = none ∧ q.fetch? pc = none) ∨
    ∃ i j, p.fetch? pc = some i ∧ q.fetch? pc = some j ∧ j.op = i.op ∧ j.line = i.line ∧
      ∀ policy s, (Effect.execute policy j.toOperation).run s =
        (Effect.execute policy i.toOperation).run s

variable {image other : List UInt8}

private theorem wordAt_cases (same : List.Forall₂ Code.Agree (imageWords image) (imageWords other))
    (pc : Int) : (wordAt image pc = none ∧ wordAt other pc = none) ∨
      ∃ word word', wordAt image pc = some word ∧ wordAt other pc = some word' ∧
        Code.Agree word word' := by
  unfold wordAt
  split
  · generalize imageWords image = words, imageWords other = others, pc.toNat = k at same ⊢
    induction same generalizing k with
    | nil => exact .inl ⟨rfl, rfl⟩
    | cons agree rest ih =>
      cases k with
      | zero => exact .inr ⟨_, _, rfl, rfl, agree⟩
      | succ k => exact ih k
  · exact .inl ⟨rfl, rfl⟩

/-- Images name no lines. -/
theorem line_of_ofImage (h : ofImage image = .ok p) {i : Instruction}
    (hi : i ∈ p.instructions) : i.line = 0 := by
  rw [ofImage] at h
  split at h
  · cases h
  obtain ⟨ops, -, h⟩ := Outcome.bind_eq_ok_iff.1 h
  obtain rfl := Except.ok.inj h
  obtain ⟨o, -, rfl⟩ := List.mem_map.1 (List.mem_toArray.1 hi)
  rfl

private theorem interchangeable_of_agree (hp : ofImage image = .ok p) (hq : ofImage other = .ok q)
    (same : List.Forall₂ Code.Agree (imageWords image) (imageWords other)) :
    p.Interchangeable q := by
  intro pc
  rcases wordAt_cases same pc with ⟨hw, hw'⟩ | ⟨word, word', hw, hw', agree⟩
  · have hi := fetch?_of_ofImage hp pc
    have hj := fetch?_of_ofImage hq pc
    rw [hw, Option.map_none, eq_comm, Option.map_eq_none_iff] at hi
    rw [hw', Option.map_none, eq_comm, Option.map_eq_none_iff] at hj
    exact .inl ⟨hi, hj⟩
  · obtain ⟨i, hi, hdecode⟩ := exists_fetch_of_word hp hw
    obtain ⟨j, hj, hdecode'⟩ := exists_fetch_of_word hq hw'
    obtain ⟨hop, haction⟩ := agree.action hdecode hdecode'
    have hline := line_of_ofImage hp (mem_of_fetch? hi)
    have hline' := line_of_ofImage hq (mem_of_fetch? hj)
    exact .inr ⟨i, j, hi, hj, hop, hline'.trans hline.symm,
      Effect.run_execute_congr (Code.decoded_of_decode hdecode).2
        (Code.decoded_of_decode hdecode').2 haction⟩

end Program

namespace Machine
variable {m : Machine} {p q : Program}

def running (q : Program) (m : Machine) : Machine := { m with program := q }

/-- A step with another program that is executed alike. -/
theorem step_running (h : p.Interchangeable q) (program : m.program = p)
    (silent : m.tracing = false) :
    (m.running q).step = (m.step.1, m.step.2.running q) := by
  subst program
  have silent' : (m.running q).tracing = false := silent
  rcases h m.state.registers.pc with ⟨hi, hj⟩ | ⟨i, j, hi, hj, hop, hline, hrun⟩
  · rw [step_of_halted (m := m) hi, step_of_halted (m := m.running q) hj]
  · have hnotices : (m.running q).notices j = m.notices i := by
      unfold notices
      rw [hop]
      rfl
    cases he : (Effect.execute m.settings.policy i.toOperation).run m.state with
    | ok u state =>
      rw [step_of_execute_ok (m := m) hi (note_of_silent silent i) he,
        step_of_execute_ok (m := m.running q) hj (note_of_silent silent' j)
          ((hrun _ _).trans he), hnotices]
      rfl
    | error trouble state =>
      rw [step_of_execute_error (m := m) hi (note_of_silent silent i) he,
        step_of_execute_error (m := m.running q) hj (note_of_silent silent' j)
          ((hrun _ _).trans he), hnotices, hline]
      rfl

structure Running (p q : Program) (m u : Machine) : Prop where
  program : m.program = p
  silent : m.tracing = false
  other : u = m.running q

namespace Running
variable {u : Machine}

theorem halted (h : p.Interchangeable q) (hm : Running p q m u) : u.halted = m.halted := by
  obtain ⟨rfl, -, rfl⟩ := hm
  unfold Machine.halted current? running
  rcases h m.state.registers.pc with ⟨hi, hj⟩ | ⟨i, j, hi, hj, -⟩
  · rw [hi, hj]
  · rw [hi, hj]
    rfl

theorem step (h : p.Interchangeable q) (hm : Running p q m u) :
    u.step.1 = m.step.1 ∧ Running p q m.step.2 u.step.2 := by
  obtain ⟨program, silent, rfl⟩ := hm
  rw [step_running h program silent]
  exact ⟨rfl, m.step_program.trans program, m.step_tracing.trans silent, rfl⟩

theorem after (h : p.Interchangeable q) (hm : Running p q m u) (n : Nat) :
    Running p q (m.after n) (u.after n) := by
  induction n generalizing m u with
  | zero => exact hm
  | succ n ih => exact ih (hm.step h).2

theorem runFor (h : p.Interchangeable q) (hm : Running p q m u) (n : Nat) :
    u.runFor n = ((m.runFor n).1, (m.runFor n).2.running q) := by
  obtain ⟨hresult, hmachine⟩ := runFor_same (R := Running p q) (fun _ _ hm => hm.halted h)
    (fun _ _ hm => hm.step h) hm n
  exact Prod.ext hresult hmachine.other

theorem runTo (h : p.Interchangeable q) (hm : Running p q m u) (limit : Int) :
    u.runTo limit = ((m.runTo limit).1, (m.runTo limit).2.running q) := by
  have hstate : u.state = m.state := by
    rw [hm.other]
    rfl
  rw [Machine.runTo, hstate]
  exact hm.runFor h _

theorem ends_iff (h : p.Interchangeable q) (hm : Running p q m u) {limit : Option Int}
    {s : Except Trouble Stop × Machine} :
    u.Ends limit s ↔ ∃ r, m.Ends limit r ∧ s = (r.1, r.2.running q) := by
  constructor
  · intro hs
    cases hs with
    | limited limit => exact ⟨_, .limited limit, hm.runTo h limit⟩
    | unlimited n stopped =>
      rw [hm.runFor h] at stopped ⊢
      exact ⟨_, .unlimited n stopped, rfl⟩
  · rintro ⟨r, hr, rfl⟩
    cases hr with
    | limited limit =>
      rw [← hm.runTo h]
      exact .limited limit
    | unlimited n stopped =>
      rw [← hm.runFor h]
      refine .unlimited n ?_
      rw [hm.runFor h]
      exact stopped

end Running

/-- Images of the same length that decode and whose words differ at most in bits that are ignored
run alike: from the same state, and without tracing, machines with them are the same but for their
programs after any number of steps, each step of theirs comes to the same with the same fault if
any, and so does a run to a limit or without one. -/
theorem ignored_bits_unseen {image other : List UInt8} (hp : Program.ofImage image = .ok p)
    (hq : Program.ofImage other = .ok q)
    (same : List.Forall₂ Code.Agree (Program.imageWords image) (Program.imageWords other))
    (program : m.program = p) (silent : m.tracing = false) :
    (∀ n, (m.running q).after n = (m.after n).running q ∧
      ((m.running q).after n).step = ((m.after n).step.1, (m.after n).step.2.running q)) ∧
    ∀ asked s, (m.running q).Ends (m.limit? asked) s ↔
      ∃ r, m.Ends (m.limit? asked) r ∧ s = (r.1, r.2.running q) := by
  have h := Program.interchangeable_of_agree hp hq same
  have hm : Running p q m (m.running q) := ⟨program, silent, rfl⟩
  refine ⟨fun n => ?_, fun asked s => hm.ends_iff h⟩
  have hafter := hm.after h n
  rw [hafter.other]
  exact ⟨rfl, step_running h hafter.program hafter.silent⟩

def plainImage : List UInt8 := [
  2, 0, 0x40, 0x4C,
  0, 0x80, 4, 0x28,
  0, 0, 0x80, 0x74,
  0, 0, 0, 0x68]

/-- The same with a first source of the move, a target of the comparison, a modifier of the load
and bits behind the comparison and in the last instruction. -/
def variantImage : List UInt8 := [
  2, 0, 0x5C, 0x4C,
  9, 0x80, 0x44, 0x29,
  0, 0, 0x82, 0x74,
  0x4D, 0, 0, 0x68]

theorem ignored_bits_unseen_variant : ∃ p q, Program.ofImage plainImage = .ok p ∧
    Program.ofImage variantImage = .ok q ∧ p.operations ≠ q.operations ∧
    List.Forall₂ Code.Agree (Program.imageWords plainImage) (Program.imageWords variantImage) ∧
    ((start p {} {}).running q).after 4 = ((start p {} {}).after 4).running q ∧
    ((start p {} {}).running q).Ends (some 9)
      (((start p {} {}).runTo 9).1, ((start p {} {}).runTo 9).2.running q) := by
  obtain ⟨p, hp⟩ : ∃ p, Program.ofImage plainImage = .ok p := ⟨_, rfl⟩
  obtain ⟨q, hq⟩ : ∃ q, Program.ofImage variantImage = .ok q := ⟨_, rfl⟩
  have same : List.Forall₂ Code.Agree (Program.imageWords plainImage)
      (Program.imageWords variantImage) :=
    .cons (by decide) (.cons (by decide) (.cons (by decide) (.cons (by decide) .nil)))
  have hdiffer : p.operations ≠ q.operations := by
    cases hp
    cases hq
    decide
  obtain ⟨hafter, hends⟩ :=
    ignored_bits_unseen hp hq same (m := start p {} {}) rfl rfl
  exact ⟨p, q, hp, hq, hdiffer, same, (hafter 4).1, (hends (some 9) _).2 ⟨_, .limited 9, rfl⟩⟩

end Machine
end MiniRisc
