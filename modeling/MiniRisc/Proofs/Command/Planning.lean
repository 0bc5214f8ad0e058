import MiniRisc.Proofs.Command.Stages
import MiniRisc.Proofs.Program.Listing
/-! What is planned for an input beside the stages: a failing stage ends with its status and shows
nothing, and what has been made is delivered or run. -/
namespace MiniRisc.Command
variable {o : Options} {c : Content} {data : List UInt8} {loaded : Loaded} {p : Program}

structure Refuses (f : Failure) (report : Report) : Prop where
  status : report.status = f.status
  output : report.output = []

section Reports

private theorem refuses_diagnosticReport (log : String) (d : Diagnostic) :
    Refuses (.ofDiagnostic d) (diagnosticReport log d) := by
  unfold Failure.ofDiagnostic diagnosticReport
  cases d.cause with
  | numeral fault => exact ⟨rfl, rfl⟩
  | _ =>
    dsimp only
    split
    · exact ⟨rfl, rfl⟩
    · exact ⟨rfl, rfl⟩

private theorem refuses_codeReport (log : String) (f : CodeFault) :
    Refuses (.ofCode f) (codeReport log f) := by
  cases f with
  | _ => exact ⟨rfl, rfl⟩

end Reports

/-- Plans for what the stages come to: a failure is reported, a product delivered, and a program
run, by a machine that may have logged something before. -/
inductive Options.Plans (o : Options) : Except Failure Goods → Plan → Prop
  | failed {f : Failure} {report : Report} (h : Refuses f report) :
      o.Plans (.error f) (.done report)
  | delivered (log errors : String) (product : Product) :
      o.Plans (.ok (.product product)) (deliver o log errors product)
  | run (p : Program) (settings : Settings) (journal : Array Log.Entry) :
      o.Plans (.ok (.run p settings))
        (.run ⟨o, { Machine.start p settings {} with tracing := o.trace, journal }⟩)

section Loading

/-- The settings that a machine is planned with, or the failure to make them. -/
theorem settingsFor_cases (log : String) (o : Options) :
    (∃ settings, o.settings = .ok settings ∧ settingsFor log o = .ok settings) ∨
      ∃ f report, o.settings = .error f ∧ settingsFor log o = .error report ∧ Refuses f report := by
  unfold Options.settings settingsFor
  by_cases hmemory : .memorySize ∈ o.valueless
  · simp only [if_pos hmemory]
    exact .inr ⟨_, _, rfl, rfl, rfl, rfl⟩
  simp only [if_neg hmemory]
  cases Settings.make o.memorySize o.stepLimit o.policy.name with
  | error v => exact .inr ⟨_, _, rfl, rfl, rfl, rfl⟩
  | ok settings =>
    by_cases hlimit : .stepLimit ∈ o.valueless
    · simp only [if_pos hlimit]
      exact .inr ⟨_, _, rfl, rfl, rfl, rfl⟩
    simp only [if_neg hlimit]
    by_cases hpolicy : .policy ∈ o.valueless
    · simp only [if_pos hpolicy]
      exact .inr ⟨_, _, rfl, rfl, rfl, rfl⟩
    simp only [if_neg hpolicy]
    exact .inl ⟨settings, rfl, rfl⟩

private theorem loadImage_cases (log : List Log.Entry) (o : Options) (data : List UInt8) :
    (∃ p, (Content.image data).program = .ok p ∧
      loadImage log o data = .ok { program := p, journal := log }) ∨
    ∃ f report, (Content.image data).program = .error f ∧ loadImage log o data = .error report ∧
      Refuses f report := by
  rw [Content.program, loadImage]
  cases Program.ofImage data with
  | ok p => exact .inl ⟨p, rfl, rfl⟩
  | error f => exact .inr ⟨.ofCode f, _, rfl, rfl, refuses_codeReport ..⟩

private theorem loadText_cases (log : List Log.Entry) (o : Options) (source : String) :
    (∃ ss p journal, Statement.ofSource source = .ok ss ∧ Assembly.program ss = .ok p ∧
      (Content.text source).program = .ok p ∧
      loadText log o source = .ok { program := p, statements := ss, journal }) ∨
    ∃ f report, (Content.text source).program = .error f ∧ loadText log o source = .error report ∧
      Refuses f report := by
  rw [Content.program, loadText, Program.ofSource]
  cases Statement.ofSource source with
  | error d => exact .inr ⟨.ofDiagnostic d, _, rfl, rfl, refuses_diagnosticReport ..⟩
  | ok ss =>
    have hprogram : (do Assembly.program (← Except.ok ss)) = Assembly.program ss := rfl
    rw [hprogram]
    cases hp : Assembly.program ss with
    | error d =>
      simp only [hp]
      exact .inr ⟨.ofDiagnostic d, _, rfl, rfl, refuses_diagnosticReport ..⟩
    | ok p =>
      simp only [hp]
      exact .inl ⟨ss, p, _, rfl, hp, rfl, rfl⟩

end Loading

private theorem plans_machinePlan (o : Options) (loaded : Loaded) :
    o.Plans (do Options.ready loaded.program (← o.settings)) (machinePlan o loaded) := by
  unfold machinePlan
  rcases settingsFor_cases (o.logText loaded.journal) o with
    ⟨settings, hs, hp⟩ | ⟨f, report, hs, hp, hr⟩
  · rw [hs, hp]
    dsimp only
    by_cases small : settings.memorySize < Memory.sizeLimit
    · have hready : (do Options.ready loaded.program (← Except.ok settings)) =
          .ok (.run loaded.program settings) := if_pos small
      have hstart : Machine.start? loaded.program settings {} =
          some (Machine.start loaded.program settings {}) := if_pos small
      rw [hready, hstart]
      exact .run ..
    · have hready : (do Options.ready loaded.program (← Except.ok settings)) =
          .error .internal := if_neg small
      have hstart : Machine.start? loaded.program settings {} = none := if_neg small
      rw [hready, hstart]
      exact .failed ⟨rfl, rfl⟩
  · rw [hs, hp]
    exact .failed hr

/-- What is planned for the tokens of a text. -/
theorem plans_tokenPlan (log : List Log.Entry) (o : Options) (source : String) :
    o.Plans (do
        return .product (.text ("\n".intercalate
          ((← (Content.text source).tokens).map Token.render))))
      (tokenPlan log o source) := by
  rw [tokenPlan, Content.tokens]
  cases Token.ofSource source with
  | error d => exact .failed (refuses_diagnosticReport ..)
  | ok tokens => exact .delivered ..

private theorem goods_of_program_error {f : Failure} (hf : o.chosenFormat ≠ .tokens)
    (hp : c.program = .error f) : o.goods c = .error f := by
  rw [Options.goods, hp]
  split
  · contradiction
  · rfl
  · rfl
  · rfl

private theorem goods_of_program (hp : c.program = .ok p) : o.goods c = match o.chosenFormat with
    | .tokens => do return .product (.text ("\n".intercalate ((← c.tokens).map Token.render)))
    | .image => do return .product (.image (← p.toImage.mapError .ofCode))
    | .listing => do return .product (.text (← c.listing))
    | .run => (do Options.ready p (← o.settings)) := by
  rw [Options.goods, hp]
  rfl

/-- What is planned for a program without its listing. -/
theorem plans_programPlan (hp : c.program = .ok loaded.program) (ht : o.chosenFormat ≠ .tokens)
    (hl : o.chosenFormat ≠ .listing) : o.Plans (o.goods c) (programPlan o loaded) := by
  rw [goods_of_program hp, programPlan]
  cases hf : o.chosenFormat with
  | tokens => contradiction
  | listing => contradiction
  | image =>
    dsimp only
    cases loaded.program.toImage with
    | error f => exact .failed (refuses_codeReport _ f)
    | ok data => exact .delivered ..
  | run => exact plans_machinePlan o loaded

/-- What is planned for an image. It has neither tokens nor a listing. -/
theorem plans_image (hread : o.readsImage = true) (ht : o.chosenFormat ≠ .tokens)
    (log : List Log.Entry) (data : List UInt8) :
    o.Plans (o.goods (.image data))
      (match loadImage log o data with
      | .error report => .done report
      | .ok loaded => programPlan o loaded) := by
  rcases loadImage_cases log o data with ⟨p, hp, hload⟩ | ⟨f, report, hp, hload, hr⟩
  · rw [hload]
    by_cases hl : o.chosenFormat = .listing
    · dsimp only
      rw [goods_of_program hp, programPlan, hl]
      dsimp only
      rw [if_pos hread]
      exact .failed ⟨rfl, rfl⟩
    · exact plans_programPlan hp ht hl
  · rw [hload, goods_of_program_error ht hp]
    exact .failed hr

/-- What is planned for a text that is not shown in tokens. -/
theorem plans_text (hread : ¬ o.readsImage = true) (ht : o.chosenFormat ≠ .tokens)
    (log : List Log.Entry) (source : String) :
    o.Plans (o.goods (.text source))
      (match loadText log o source with
      | .error report => .done report
      | .ok loaded => programPlan o loaded) := by
  rcases loadText_cases log o source with
    ⟨ss, p, journal, hs, hp, hprogram, hload⟩ | ⟨f, report, hp, hload, hr⟩
  · rw [hload]
    by_cases hl : o.chosenFormat = .listing
    · dsimp only
      rw [goods_of_program hprogram, programPlan, hl]
      dsimp only
      rw [if_neg hread, Content.listing, Program.listing_assemble hs hp]
      cases Assembly.listing p ss with
      | error f => exact .failed (refuses_codeReport _ f)
      | ok text => exact .delivered ..
    · exact plans_programPlan hprogram ht hl
  · rw [hload, goods_of_program_error ht hp]
    exact .failed hr

/-- What is planned for an input is what its stages come to. -/
theorem plans_contentPlan (hc : o.content? data = some c) :
    o.Plans (o.goods c) (contentPlan o data) := by
  unfold Options.content? at hc
  unfold contentPlan
  split at hc
  · rename_i hread
    cases hc
    rw [if_pos hread]
    by_cases ht : o.chosenFormat = .tokens
    · rw [if_pos ht, Options.goods, ht]
      exact .failed ⟨rfl, rfl⟩
    · rw [if_neg ht]
      exact plans_image hread ht ..
  · rename_i hread
    obtain ⟨source, hsource, rfl⟩ := Option.map_eq_some_iff.1 hc
    rw [if_neg hread, hsource]
    by_cases ht : o.chosenFormat = .tokens
    · simp only [if_pos ht]
      rw [Options.goods, ht]
      exact plans_tokenPlan ..
    · simp only [if_neg ht]
      exact plans_text hread ht ..

end MiniRisc.Command
