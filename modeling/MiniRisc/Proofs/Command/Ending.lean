import MiniRisc.Command.Folder
import MiniRisc.Proofs.Command.Planning
import MiniRisc.Proofs.Machine.Journal
import MiniRisc.Proofs.Program.Listing
/-! How command lines end: with which status, and with what written. Neither the storage of the
files nor the reader of the arguments is a certain one. -/
namespace MiniRisc.Command

section Definitions
variable {σ : Type} (storage : Storage σ) (files : σ)

/-- How a command line that is given some standard input ends: its report, and the files behind
it. One that runs a machine ends where the run does. -/
inductive Finishes (reader : List String → Request) (args : List String) (stdin : List UInt8) :
    Report → σ → Prop
  | ended {report : Report} {after : σ}
      (h : start storage files reader args = .ended report after) :
      Finishes reader args stdin report after
  | run {job : Job} {result : Except Trouble Stop} {m : Machine}
      (h : start storage files reader args = .running job)
      (he : (job.withInput stdin).machine.Ends ((job.withInput stdin).machine.limit? none)
        (result, m)) :
      Finishes reader args stdin (job.report result m) files

def Options.deliverTo (o : Options) (product : Product) : Except Failure (List UInt8 × σ) :=
  if .output ∈ o.valueless then .error .internal
  else
    match o.output with
    | none => .ok (product.shown, files)
    | some path =>
      if isUnnameable path then .error .unnameableOutput
      else
        match storage.write? files path product.filed with
        | some after => .ok ([], after)
        | none => .error .internal

/-- Failures of a command line whose input is decoded: of a stage, of the delivery, or of the
machine that is run. -/
inductive Fails (o : Options) (c : Content) (stdin : List UInt8) : Failure → Prop
  | stage {f : Failure} (h : o.goods c = .error f) : Fails o c stdin f
  | delivery {product : Product} {f : Failure} (h : o.goods c = .ok (.product product))
      (hd : o.deliverTo storage files product = .error f) : Fails o c stdin f
  | fault {p : Program} {settings : Settings} {f : Fault} {m : Machine}
      (h : o.goods c = .ok (.run p settings))
      (he : (o.machine p settings stdin).Ends (settings.stepLimit.map Int.ofNat)
        (.error (.fault f), m)) : Fails o c stdin (.execution f)
  | defect {p : Program} {settings : Settings} {d : Defect} {m : Machine}
      (h : o.goods c = .ok (.run p settings))
      (he : (o.machine p settings stdin).Ends (settings.stepLimit.map Int.ofNat)
        (.error (.defect d), m)) : Fails o c stdin .internal

/-- The whole of a content in a format that is not run: its tokens, the image of its program, or
the listing of a program that has an image. -/
inductive Converted : Content → Format → Product → Prop
  | tokens {source : String} {tokens : List Token} (h : Token.ofSource source = .ok tokens) :
      Converted (.text source) .tokens (.text ("\n".intercalate (tokens.map Token.render)))
  | image {c : Content} {p : Program} {data : List UInt8} (h : c.program = .ok p)
      (hi : p.toImage = .ok data) : Converted c .image (.image data)
  | listing {source text : String} {p : Program} {data : List UInt8}
      (h : Program.ofSource source = .ok p) (hi : p.toImage = .ok data)
      (hl : (({} : Assembly.Session).assemble source).2.listing = .ok text) :
      Converted (.text source) .listing (.text text)

/-- How far a command line comes for what the stages come to. -/
inductive Starts (o : Options) : Except Failure Goods → Started σ → Prop
  | failed {f : Failure} {report : Report} (h : Refuses f report) :
      Starts o (.error f) (.ended report files)
  | undelivered {product : Product} {f : Failure} {report : Report}
      (hd : o.deliverTo storage files product = .error f) (h : Refuses f report) :
      Starts o (.ok (.product product)) (.ended report files)
  | delivered {product : Product} {report : Report} {after : σ}
      (hd : o.deliverTo storage files product = .ok (report.output, after))
      (hs : report.status = 0) :
      Starts o (.ok (.product product)) (.ended report after)
  | run {p : Program} {settings : Settings} {job : Job}
      (h : ∀ stdin, Machine.Unlogged (o.machine p settings stdin) (job.withInput stdin).machine) :
      Starts o (.ok (.run p settings)) (.running job)

end Definitions

section Ending
variable {σ : Type} {storage : Storage σ} {files after : σ} {reader : List String → Request}
  {args : List String} {o : Options} {data : List UInt8} {c : Content} {plan : Plan}
  {report : Report} {stdin : List UInt8} {result : Except Failure Goods}

private theorem starts_deliver (storage : Storage σ) (files : σ) (o : Options) (log errors : String)
    (product : Product) : Starts storage files o (.ok (.product product))
      ((deliver o log errors product).start storage files) := by
  by_cases hname : .output ∈ o.valueless
  · have hd : o.deliverTo storage files product = .error .internal := if_pos hname
    rw [deliver, if_pos hname]
    exact .undelivered hd ⟨rfl, rfl⟩
  rw [deliver, if_neg hname]
  cases ho : o.output with
  | none =>
    have hd : o.deliverTo storage files product = .ok (product.shown, files) := by
      rw [Options.deliverTo, if_neg hname, ho]
    exact .delivered hd rfl
  | some path =>
    by_cases hpath : isUnnameable path
    · have hd : o.deliverTo storage files product = .error .unnameableOutput := by
        rw [Options.deliverTo, if_neg hname, ho]
        exact if_pos hpath
      dsimp only
      rw [if_pos hpath]
      exact .undelivered hd ⟨rfl, rfl⟩
    have hd : o.deliverTo storage files product =
        match storage.write? files path product.filed with
        | some after => .ok ([], after)
        | none => .error .internal := by
      rw [Options.deliverTo, if_neg hname, ho]
      exact if_neg hpath
    dsimp only
    rw [if_neg hpath, Plan.start]
    cases hw : storage.write? files path product.filed with
    | none =>
      rw [hw] at hd
      exact .undelivered hd ⟨rfl, rfl⟩
    | some after =>
      rw [hw] at hd
      exact .delivered hd rfl

private theorem starts_of_plans (storage : Storage σ) (files : σ) (h : o.Plans result plan) :
    Starts storage files o result (plan.start storage files) := by
  cases h with
  | failed h => exact .failed h
  | delivered log errors product => exact starts_deliver ..
  | run p settings journal => exact .run fun _ => ⟨journal, rfl⟩

private theorem start_of_content (hargs : reader args = .process o)
    (hread : storage.read files o.input = .content data) :
    start storage files reader args = (contentPlan o data).start storage files := by
  rw [start, hargs]
  dsimp only
  rw [hread]
  rfl

private theorem starts_of_content (hargs : reader args = .process o)
    (hread : storage.read files o.input = .content data) (hc : o.content? data = some c) :
    Starts storage files o (o.goods c) (start storage files reader args) := by
  rw [start_of_content hargs hread]
  exact starts_of_plans storage files (plans_contentPlan hc)

private theorem content?_eq_none_iff : o.content? data = none ↔
    o.readsImage = false ∧ String.fromUTF8? ⟨data.toArray⟩ = none := by
  rw [Options.content?]
  split
  · rename_i himage
    simp [himage]
  · rename_i himage
    simp [himage]

/-- An input that is not decoded is all that a command line stops at without a report. -/
theorem start_eq_undecodable_iff (hargs : reader args = .process o)
    (hread : storage.read files o.input = .content data) :
    start storage files reader args = .undecodable ↔ o.content? data = none := by
  cases hc : o.content? data with
  | none =>
    obtain ⟨himage, hsource⟩ := content?_eq_none_iff.1 hc
    rw [start_of_content hargs hread, contentPlan, hsource, himage]
    exact ⟨fun _ => rfl, fun _ => rfl⟩
  | some c =>
    have hstarts := starts_of_content hargs hread hc
    generalize o.goods c = result at hstarts
    generalize start storage files reader args = started at hstarts ⊢
    cases hstarts with
    | failed | undelivered | delivered | run => exact ⟨nofun, nofun⟩

private theorem converted_of_listing {source text : String} {p : Program}
    (hp : (Content.text source).program = .ok p) (h : (Content.text source).listing = .ok text) :
    Converted (.text source) .listing (.text text) := by
  have hsource : Program.ofSource source = .ok p := Outcome.mapError_eq_ok_iff.1 hp
  have hlisting : (({} : Assembly.Session).assemble source).2.listing = .ok text :=
    Outcome.mapError_eq_ok_iff.1 h
  obtain ⟨ss, hs, hprogram⟩ := Outcome.bind_eq_ok_iff.1 hsource
  have hlines := hlisting
  rw [Program.listing_assemble hs hprogram] at hlines
  obtain ⟨image, hi⟩ := Program.image_of_listing hprogram hlines
  exact .listing hsource hi hlisting

/-- A product is made of the whole content. -/
theorem converted_of_goods {product : Product} (h : o.goods c = .ok (.product product)) :
    Converted c o.chosenFormat product := by
  unfold Options.goods at h
  split at h
  · rename_i hf
    obtain ⟨tokens, ht, h⟩ := Outcome.bind_eq_ok_iff.1 h
    cases h
    rw [hf]
    cases c with
    | image data => cases ht
    | text source => exact .tokens (Outcome.mapError_eq_ok_iff.1 ht)
  · rename_i hf
    obtain ⟨p, hp, h⟩ := Outcome.bind_eq_ok_iff.1 h
    obtain ⟨data, hi, h⟩ := Outcome.bind_eq_ok_iff.1 h
    cases h
    rw [hf]
    exact .image hp (Outcome.mapError_eq_ok_iff.1 hi)
  · rename_i hf
    obtain ⟨p, hp, h⟩ := Outcome.bind_eq_ok_iff.1 h
    obtain ⟨text, hl, h⟩ := Outcome.bind_eq_ok_iff.1 h
    cases h
    rw [hf]
    cases c with
    | image data => cases hl
    | text source => exact converted_of_listing hp hl
  · obtain ⟨p, hp, h⟩ := Outcome.bind_eq_ok_iff.1 h
    obtain ⟨settings, hs, h⟩ := Outcome.bind_eq_ok_iff.1 h
    unfold Options.ready at h
    split at h <;> cases h

private theorem chosenFormat_of_run {p : Program} {settings : Settings}
    (h : o.goods c = .ok (.run p settings)) : o.chosenFormat = .run := by
  unfold Options.goods at h
  split at h
  · obtain ⟨tokens, -, h⟩ := Outcome.bind_eq_ok_iff.1 h
    cases h
  · obtain ⟨p, -, h⟩ := Outcome.bind_eq_ok_iff.1 h
    obtain ⟨data, -, h⟩ := Outcome.bind_eq_ok_iff.1 h
    cases h
  · obtain ⟨p, -, h⟩ := Outcome.bind_eq_ok_iff.1 h
    obtain ⟨text, -, h⟩ := Outcome.bind_eq_ok_iff.1 h
    cases h
  · assumption

/-- A command line has one failure at most. -/
theorem Fails.unique {f f' : Failure} (h : Fails storage files o c stdin f)
    (h' : Fails storage files o c stdin f') : f = f' := by
  cases h with
  | stage h =>
    cases h' with
    | stage h' => exact Except.error.inj (h.symm.trans h')
    | delivery h' => cases h.symm.trans h'
    | fault h' => cases h.symm.trans h'
    | defect h' => cases h.symm.trans h'
  | delivery h hd =>
    cases h' with
    | stage h' => cases h.symm.trans h'
    | delivery h' hd' =>
      cases h.symm.trans h'
      exact Except.error.inj (hd.symm.trans hd')
    | fault h' => cases h.symm.trans h'
    | defect h' => cases h.symm.trans h'
  | fault h he =>
    cases h' with
    | stage h' => cases h.symm.trans h'
    | delivery h' => cases h.symm.trans h'
    | fault h' he' =>
      cases h.symm.trans h'
      cases he.unique he'
      rfl
    | defect h' he' =>
      cases h.symm.trans h'
      cases he.unique he'
  | defect h he =>
    cases h' with
    | stage h' => cases h.symm.trans h'
    | delivery h' => cases h.symm.trans h'
    | fault h' he' =>
      cases h.symm.trans h'
      cases he.unique he'
    | defect h' he' => rfl

/-- A command line ends, unless it runs a machine that does not. -/
theorem finishes_iff (h : Starts storage files o (o.goods c) (start storage files reader args)) :
    (∃ report after, Finishes storage files reader args stdin report after) ↔
      ∀ p settings, o.goods c = .ok (.run p settings) →
        ∃ r, (o.machine p settings stdin).Ends (settings.stepLimit.map Int.ofNat) r := by
  generalize hg : o.goods c = result at h
  generalize hs : start storage files reader args = started at h
  cases h with
  | failed | undelivered | delivered => exact ⟨nofun, fun _ => ⟨_, _, .ended hs⟩⟩
  | @run p settings job hjob =>
    constructor
    · rintro ⟨report, after, hf⟩ q settings' he
      cases he
      cases hf with
      | ended hs' => cases hs.symm.trans hs'
      | run hs' he =>
        cases hs.symm.trans hs'
        obtain ⟨m, hm⟩ := ((hjob stdin).ends_iff ..).1 ⟨_, he⟩
        exact ⟨_, hm⟩
    · intro hends
      obtain ⟨⟨result, m⟩, hr⟩ := hends p settings rfl
      obtain ⟨v, hv⟩ := ((hjob stdin).ends_iff none result).2 ⟨m, hr⟩
      exact ⟨_, _, .run hs hv⟩

/-- The status of a command line is that of its failure, if it has one. -/
theorem status_of_finishes
    (h : Starts storage files o (o.goods c) (start storage files reader args))
    (hf : Finishes storage files reader args stdin report after) :
    (report.status = 0 ∧ ∀ f, ¬ Fails storage files o c stdin f) ∨
      ∃ f, Fails storage files o c stdin f ∧ report.status = f.status := by
  generalize hg : o.goods c = result at h
  generalize hs : start storage files reader args = started at h
  cases h with
  | @failed f report hr =>
    cases hf with
    | ended hs' =>
      cases hs.symm.trans hs'
      exact .inr ⟨f, .stage hg, hr.status⟩
    | run hs' => cases hs.symm.trans hs'
  | @undelivered product f report hd hr =>
    cases hf with
    | ended hs' =>
      cases hs.symm.trans hs'
      exact .inr ⟨f, .delivery hg hd, hr.status⟩
    | run hs' => cases hs.symm.trans hs'
  | delivered hd hstatus =>
    cases hf with
    | ended hs' =>
      cases hs.symm.trans hs'
      refine .inl ⟨hstatus, fun f hf => ?_⟩
      cases hf with
      | stage h => cases hg.symm.trans h
      | delivery h hd' =>
        cases hg.symm.trans h
        cases hd.symm.trans hd'
      | fault h => cases hg.symm.trans h
      | defect h => cases hg.symm.trans h
    | run hs' => cases hs.symm.trans hs'
  | @run p settings job hjob =>
    cases hf with
    | ended hs' => cases hs.symm.trans hs'
    | @run job' result m hs' he =>
      -- The machine of the job has logged something before, so only the outcome is the same.
      cases hs.symm.trans hs'
      obtain ⟨v, hv⟩ := ((hjob stdin).ends_iff ..).1 ⟨_, he⟩
      rcases result with ⟨f | d⟩ | stop
      · exact .inr ⟨.execution f, .fault hg hv, rfl⟩
      · exact .inr ⟨.internal, .defect hg hv, rfl⟩
      · refine .inl ⟨rfl, fun f hf => ?_⟩
        cases hf with
        | stage h => cases hg.symm.trans h
        | delivery h => cases hg.symm.trans h
        | fault h he' =>
          cases hg.symm.trans h
          cases hv.unique he'
        | defect h he' =>
          cases hg.symm.trans h
          cases hv.unique he'

/-- Output in a format that is not run is a whole product, where it was to be delivered. -/
theorem written_of_finishes
    (h : Starts storage files o (o.goods c) (start storage files reader args))
    (hf : Finishes storage files reader args stdin report after) (hformat : o.chosenFormat ≠ .run)
    (hw : report.output ≠ [] ∨ after ≠ files) : ∃ product,
      Converted c o.chosenFormat product ∧
        o.deliverTo storage files product = .ok (report.output, after) := by
  generalize hg : o.goods c = result at h
  generalize hs : start storage files reader args = started at h
  cases h with
  | failed hr | undelivered hd hr =>
    cases hf with
    | ended hs' =>
      cases hs.symm.trans hs'
      simp [hr.output] at hw
    | run hs' => cases hs.symm.trans hs'
  | @delivered product report after hd =>
    cases hf with
    | ended hs' =>
      cases hs.symm.trans hs'
      exact ⟨product, converted_of_goods hg, hd⟩
    | run hs' => cases hs.symm.trans hs'
  | run => exact absurd (chosenFormat_of_run hg) hformat

/-- A command line on an input that can be read. An exception escapes exactly if the input is a text
that is not UTF-8. Any other input ends the command line, unless it runs a machine that does not
end. The command line has one failure at most, the status of which it ends with, and without one
the status is zero. In a format that is not run nothing is written unless the whole input has been
converted, and then it is the whole product. -/
theorem start_content (hargs : reader args = .process o)
    (hread : storage.read files o.input = .content data) (stdin : List UInt8) :
    (start storage files reader args = .undecodable ↔
      o.readsImage = false ∧ String.fromUTF8? ⟨data.toArray⟩ = none) ∧
    ∀ c, o.content? data = some c →
      ((∃ report after, Finishes storage files reader args stdin report after) ↔
        ∀ p settings, o.goods c = .ok (.run p settings) →
          ∃ r, (o.machine p settings stdin).Ends (settings.stepLimit.map Int.ofNat) r) ∧
      (∀ f f', Fails storage files o c stdin f → Fails storage files o c stdin f' → f = f') ∧
      ∀ report after, Finishes storage files reader args stdin report after →
        ((report.status = 0 ∧ ∀ f, ¬ Fails storage files o c stdin f) ∨
          ∃ f, Fails storage files o c stdin f ∧ report.status = f.status) ∧
        (o.chosenFormat ≠ .run → report.output ≠ [] ∨ after ≠ files → ∃ product,
          Converted c o.chosenFormat product ∧
            o.deliverTo storage files product = .ok (report.output, after)) := by
  refine ⟨?_, fun c hc => ?_⟩
  · rw [start_eq_undecodable_iff hargs hread, content?_eq_none_iff]
  · have hstarts := starts_of_content hargs hread hc
    exact ⟨finishes_iff hstarts, fun _ _ => Fails.unique, fun report after hf =>
      ⟨status_of_finishes hstarts hf, written_of_finishes hstarts hf⟩⟩

end Ending

theorem start_content_nop :
    Request.ofArgs ["a.s", "-o", "a.bin"] = .process { input := "a.s", output := some "a.bin" } ∧
    Folder.storage.read { files := [("a.s", [110, 111, 112])] } "a.s" = .content [110, 111, 112] ∧
    ∃ report after,
      Finishes Folder.storage { files := [("a.s", [110, 111, 112])] } Request.ofArgs
        ["a.s", "-o", "a.bin"] [] report after ∧
      (report.output ≠ [] ∨ after ≠ { files := [("a.s", [110, 111, 112])] } →
        ∃ product, Converted (.text "nop") .image product) := by
  have hargs : Request.ofArgs ["a.s", "-o", "a.bin"] =
      .process { input := "a.s", output := some "a.bin" } := by cbv
  have hread : Folder.storage.read { files := [("a.s", [110, 111, 112])] } "a.s" =
      .content [110, 111, 112] := by cbv
  have hcontent : Options.content? { input := "a.s", output := some "a.bin" } [110, 111, 112] =
      some (.text "nop") := by cbv
  have hformat : Options.chosenFormat { input := "a.s", output := some "a.bin" } = .image := by cbv
  obtain ⟨hends, -, hlast⟩ := (start_content hargs hread []).2 _ hcontent
  have hshown (p : Program) (settings : Settings)
      (hg : Options.goods { input := "a.s", output := some "a.bin" } (.text "nop") =
        .ok (.run p settings)) : False := by
    have hrun := chosenFormat_of_run hg
    rw [hformat] at hrun
    cases hrun
  obtain ⟨report, after, hf⟩ := hends.2 fun p settings hg => (hshown p settings hg).elim
  refine ⟨hargs, hread, report, after, hf, fun hw => ?_⟩
  obtain ⟨product, hconverted, -⟩ := (hlast report after hf).2 (by simp [hformat]) hw
  exact ⟨product, hformat ▸ hconverted⟩

/-- A text of one byte that begins no character: nothing is reported, and there is no status. -/
theorem start_undecodable :
    Request.ofArgs ["x.s"] = .process { input := "x.s" } ∧
    Folder.storage.read { files := [("x.s", [255])] } "x.s" = .content [255] ∧
    start Folder.storage { files := [("x.s", [255])] } Request.ofArgs ["x.s"] = .undecodable ∧
    ∀ stdin report after, ¬ Finishes Folder.storage { files := [("x.s", [255])] } Request.ofArgs
      ["x.s"] stdin report after := by
  have hargs : Request.ofArgs ["x.s"] = .process { input := "x.s" } := by cbv
  have hread : Folder.storage.read { files := [("x.s", [255])] } "x.s" = .content [255] := by cbv
  have hstart : start Folder.storage { files := [("x.s", [255])] } Request.ofArgs ["x.s"] =
      .undecodable := (start_eq_undecodable_iff hargs hread).2 (by cbv)
  refine ⟨hargs, hread, hstart, fun stdin report after hf => ?_⟩
  cases hf with
  | ended h => cases hstart.symm.trans h
  | run h => cases hstart.symm.trans h

end MiniRisc.Command
