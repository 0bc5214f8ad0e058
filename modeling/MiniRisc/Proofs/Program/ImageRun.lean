import MiniRisc.Proofs.Machine.Twin
import MiniRisc.Proofs.Program.RoundTrip
/-! Running an image is running the program that it is the image of. -/
namespace MiniRisc.Program

/-- Data is loaded before a run without a look at the program. -/
theorem load_with_program {m : Machine} {data : List UInt8} {base : Int} (q : Program) :
    ({ m with program := q } : Machine).load data base =
      (m.load data base).map fun (loaded : Machine) => { loaded with program := q } := by
  unfold Machine.load
  cases m.state.memory.load data base <;> rfl

/-- An assembled program whose branches all reach their targets has an image that is read back as a
program. Take a machine that runs the one program, with any settings, data, registers and streams,
and beside it the same machine with the other program. After any number of steps they are twins and
their next step is alike: the same stop, or the same cause of a fault at the same instruction. A
run of either, with a limit or without, ends as a run of the other does. -/
theorem image_run_alike {source : String} {p : Program} (h : ofSource source = .ok p)
    (hreach : p.BranchesReach) :
    ∃ image q, p.toImage = .ok image ∧ ofImage image = .ok q ∧
      ∀ m u : Machine, m.program = p → u = { m with program := q } →
        (∀ n, (m.after n).Twin (u.after n)) ∧
        (∀ n, Machine.Alike (m.after n).step (u.after n).step) ∧
        ∀ asked,
          (∀ r, m.Ends (m.limit? asked) r → ∃ s, u.Ends (u.limit? asked) s ∧ Machine.Alike r s) ∧
          ∀ s, u.Ends (u.limit? asked) s → ∃ r, m.Ends (m.limit? asked) r ∧ Machine.Alike r s := by
  obtain ⟨_, image, q, -, -, himage, -, hq, hsame⟩ := (image_round_trip h).1 hreach
  refine ⟨image, q, himage, hq, ?_⟩
  rintro m u rfl rfl
  have hops : q.operations = m.program.operations := by simpa [sameOperations] using hsame
  have htwin : m.Twin { m with program := q } := .of_program m hops
  refine ⟨htwin.after, fun n => (htwin.after n).step, fun asked => ⟨fun r hr => ?_, fun s hs => ?_⟩⟩
  · exact htwin.ends hr
  · obtain ⟨r, hr, halike⟩ := htwin.symm.ends hs
    exact ⟨r, hr, halike.symm⟩

theorem image_run_alike_countdown :
    ofSource "loop: sub r1, r1, 1\ncmp r1, 0\nbgt loop" = .ok countdown ∧
      countdown.BranchesReach ∧
      ∃ image q m u, countdown.toImage = .ok image ∧ ofImage image = .ok q ∧
        (Machine.start countdown { memorySize := 16 } {}).load [1, 2, 3] 8 = .ok m ∧
        (Machine.start q { memorySize := 16 } {}).load [1, 2, 3] 8 = .ok u ∧
        Machine.Alike (m.after 2).step (u.after 2).step ∧
        ∃ s, u.Ends (some 100) s ∧ Machine.Alike (m.runTo 100) s := by
  have hform : ∀ i ∈ countdown.instructions, i.toOperation.WellFormed countdown.size :=
    fun i hi => (ofSource_assembled ofSource_countdown i hi).wellFormed
  have hreach := branchesReach_of_size_lt hform (by decide)
  obtain ⟨image, q, himage, hq, hrun⟩ := image_run_alike ofSource_countdown hreach
  obtain ⟨m, hm, hp⟩ : ∃ m,
      (Machine.start countdown { memorySize := 16 } {}).load [1, 2, 3] 8 = .ok m ∧
        m.program = countdown := ⟨_, rfl, rfl⟩
  have hu : (Machine.start q { memorySize := 16 } {}).load [1, 2, 3] 8 =
      .ok { m with program := q } := by
    rw [show Machine.start q { memorySize := 16 } {} =
      { Machine.start countdown { memorySize := 16 } {} with program := q } from rfl]
    rw [load_with_program, hm]
    rfl
  obtain ⟨-, hstep, hends⟩ := hrun m _ hp rfl
  exact ⟨ofSource_countdown, hreach, image, q, m, _, himage, hq, hm, hu, hstep 2,
    (hends (some 100)).1 _ (.limited 100)⟩

end MiniRisc.Program
