import Seanet.Proofs.Driver.Events
import Seanet.Proofs.File.Effects

set_option autoImplicit false

namespace Seanet

namespace Driver

def orderFor (o : Options) (config : Config) (source : Source) (output : Text) : Order :=
  ⟨source.compile.program, output, o.kind config, Path.stem (Path.baseName o.input)⟩

/-- The options ask for one file to be built. -/
structure Builds (o : Options) (output : Text) : Prop where
  alone : o.workspace = false
  unlisted : Options.given o.emit = none
  output : Options.given o.output = some output

def scanning (fs : FileSystem) (root : Text) (count : Nat) (files : List Text) : List Event :=
  [.info ("Scanning workspace for sources: " ++ root),
      .info ("Found " ++ Text.ofNat count ++ " source files.")] ++
    (faultsOf fs files).map (.error ·.message)

/-- The work that the options ask for can come to the run. -/
inductive Performs (fs : FileSystem) (o : Options) (config : Config) (g : Generator)
    (finder : Glob.Finder) : Run → Prop where
  | missing (hinput : fs.exists? o.input = false) :
    Performs fs o config g finder (.stopped config ("Input not found: " ++ o.input) fs)
  | notDirectory (hworkspace : o.workspace = true) (hroot : fs.isDirectory o.input = false) :
    Performs fs o config g finder
      (.stopped config ("--workspace expects a directory, got " ++ o.input) fs)
  | badPattern {fault : Glob.Failure} (hworkspace : o.workspace = true)
      (hroot : fs.isDirectory o.input = true)
      (hfound : finder fs (Path.resolve fs.home o.input) config.included config.ignored =
        .error fault) :
    Performs fs o config g finder
      ⟨config, [.info ("Scanning workspace for sources: " ++ o.input)], .error (.pattern fault),
        none, fs⟩
  | checked {paths : List Text} (hworkspace : o.workspace = true)
      (hroot : fs.isDirectory o.input = true)
      (hfound : finder fs (Path.resolve fs.home o.input) config.included config.ignored =
        .ok paths) :
    Performs fs o config g finder
      (.concluded config (scanning fs o.input paths.length (paths.mergeSort Text.le))
        (unitsOf fs (paths.mergeSort Text.le)) (faultsOf fs (paths.mergeSort Text.le)).length none
        fs)
  | incomplete (halone : o.workspace = false) (hemit : Options.given o.emit = none)
      (houtput : Options.given o.output = none) :
    Performs fs o config g finder
      (.stopped config "An output file is required (-o, --output-file)." fs)
  | unreadable {fault : FileAccessError} (halone : o.workspace = false)
      (hsource : fs.source o.input = .error fault) :
    Performs fs o config g finder (.stopped config fault.message fs)
  | listed {what : Text} {source : Source} (halone : o.workspace = false)
      (hemit : Options.given o.emit = some what) (hsource : fs.source o.input = .ok source) :
    Performs fs o config g finder
      (.concluded config ((source.compile.listing (.ofName what)).map .listed) [source.compile] 0
        none fs)
  | unclean {output : Text} {source : Source} (hbuild : Builds o output)
      (hsource : fs.source o.input = .ok source) (hlog : source.compile.log ≠ []) :
    Performs fs o config g finder (.concluded config [] [source.compile] 0 none fs)
  | generated {output : Text} {source : Source} (hbuild : Builds o output)
      (hsource : fs.source o.input = .ok source) (hlog : source.compile.log = [])
      (hdone : (g (orderFor o config source output) fs).2 = none) :
    Performs fs o config g finder
      (.concluded config [] [source.compile] 0 (some (orderFor o config source output))
        (g (orderFor o config source output) fs).1)
  | failed {output cause : Text} {source : Source} (hbuild : Builds o output)
      (hsource : fs.source o.input = .ok source) (hlog : source.compile.log = [])
      (hfailed : (g (orderFor o config source output) fs).2 = some cause) :
    Performs fs o config g finder
      { Run.stopped config (FileAccessError.message ⟨.write, output, cause⟩)
          (g (orderFor o config source output) fs).1 with
        order := some (orderFor o config source output) }

variable (fs : FileSystem) (o : Options) (config : Config) (g : Generator)
  (reader : Config.Reader) (finder : Glob.Finder)

theorem performs_check (hworkspace : o.workspace = true) :
    Performs fs o config g finder (fs.check config o.input finder) := by
  unfold FileSystem.check
  by_cases hroot : fs.isDirectory o.input
  · rw [if_pos hroot]
    cases hfound : finder fs (Path.resolve fs.home o.input) config.included config.ignored with
    | error fault => exact .badPattern hworkspace hroot hfound
    | ok paths =>
      simp only [checkFiles_eq, after_concluded]
      exact .checked hworkspace hroot hfound
  · rw [if_neg hroot]
    exact .notDirectory hworkspace (by simpa using hroot)

theorem performs_list {what : Text} (halone : o.workspace = false)
    (hemit : Options.given o.emit = some what) :
    Performs fs o config g finder (fs.list config o.input (.ofName what)) := by
  unfold FileSystem.list
  cases hsource : fs.source o.input with
  | error fault => exact .unreadable halone hsource
  | ok source => exact .listed halone hemit hsource

theorem given_filter (t : Option Text) :
    (Options.given t).filter (!·.isEmpty) = Options.given t := by
  cases t with
  | none => rfl
  | some t => by_cases ht : t.isEmpty <;> simp [Options.given, Option.filter, ht]

section

variable {fs o config g} {output : Text} {source : Source}

theorem build_of_clean (hbuild : Builds o output) (hsource : fs.source o.input = .ok source)
    (hlog : source.compile.log = []) :
    let order := orderFor o config source output
    fs.build o.input (some output) (o.kind config) g =
      ⟨match (g order fs).2 with
        | none => .ok (source.compile, some output)
        | some cause => .error ⟨.write, output, cause⟩,
      some order, (g order fs).1⟩ := by
  have houtput : (some output).filter (!·.isEmpty) = some output := by
    rw [← hbuild.output, given_filter]
  have hclean : source.compile.isClean = true := by simp [Compilation.isClean, hlog]
  simp only [FileSystem.build, hsource, houtput, hclean, if_true, orderFor]
  rcases g _ fs with ⟨files, _ | cause⟩ <;> rfl

theorem build_of_unclean (hsource : fs.source o.input = .ok source)
    (hlog : source.compile.log ≠ []) :
    fs.build o.input (some output) (o.kind config) g = ⟨.ok (source.compile, none), none, fs⟩ := by
  have hclean : source.compile.isClean = false := by simpa [Compilation.isClean] using hlog
  simp only [FileSystem.build, hsource, hclean]
  split <;> rfl

end

theorem performs_build {output : Text} (hbuild : Builds o output) :
    Performs fs o config g finder
      (fs.buildFile config o.input output (o.kind config) g) := by
  unfold FileSystem.buildFile
  cases hsource : fs.source o.input with
  | error fault =>
    simp only [FileSystem.build, hsource]
    exact .unreadable hbuild.alone hsource
  | ok source =>
    by_cases hlog : source.compile.log = []
    · simp only [build_of_clean hbuild hsource hlog]
      cases hg : (g (orderFor o config source output) fs).2 with
      | none => exact .generated hbuild hsource hlog hg
      | some cause => exact .failed hbuild hsource hlog hg
    · simp only [build_of_unclean hsource hlog]
      exact .unclean hbuild hsource hlog

theorem performs : Performs fs o config g finder (fs.perform o config g finder) := by
  unfold FileSystem.perform Options.task
  by_cases hinput : fs.exists? o.input
  · rw [if_pos hinput]
    by_cases hworkspace : o.workspace
    · rw [if_pos hworkspace]
      exact performs_check fs o config g finder hworkspace
    · rw [if_neg hworkspace]
      have halone : o.workspace = false := by simpa using hworkspace
      cases hemit : Options.given o.emit with
      | some what => exact performs_list fs o config g finder halone hemit
      | none =>
        cases houtput : Options.given o.output with
        | some output => exact performs_build fs o config g finder ⟨halone, hemit, houtput⟩
        | none => exact .incomplete halone hemit houtput
  · rw [if_neg hinput]
    exact .missing (by simpa using hinput)

/-- Something is wrong with the input or the output. -/
inductive Problem (fs : FileSystem) (o : Options) (config : Config) (g : Generator) : Prop where
  | missing (hinput : fs.exists? o.input = false)
  | notDirectory (hworkspace : o.workspace = true) (hroot : fs.isDirectory o.input = false)
  | unreadable {fault : FileAccessError} (halone : o.workspace = false)
      (hsource : fs.source o.input = .error fault)
  | incomplete (halone : o.workspace = false) (hemit : Options.given o.emit = none)
      (houtput : Options.given o.output = none)
  | unwritable {output cause : Text} {source : Source} (hbuild : Builds o output)
      (hsource : fs.source o.input = .ok source) (hlog : source.compile.log = [])
      (hfailed : (g (orderFor o config source output) fs).2 = some cause)

section

variable {fs : FileSystem} {o : Options} {config : Config} {g : Generator} {finder : Glob.Finder}
  {r : Run}

theorem no_problem_of_directory (hworkspace : o.workspace = true)
    (hroot : fs.isDirectory o.input = true) : ¬Problem fs o config g := by
  intro hp
  cases hp with
  | missing hinput => simp [fs.exists_of_isDirectory hroot] at hinput
  | notDirectory _ hnot => simp [hroot] at hnot
  | unreadable halone | incomplete halone => simp [hworkspace] at halone
  | unwritable hbuild =>
    have halone := hbuild.alone
    simp [hworkspace] at halone

theorem no_problem_of_source {source : Source} (halone : o.workspace = false)
    (hsource : fs.source o.input = .ok source)
    (hgiven : Options.given o.emit = none → Options.given o.output ≠ none)
    (hwritten : ∀ output, Builds o output → source.compile.log = [] →
      (g (orderFor o config source output) fs).2 = none) : ¬Problem fs o config g := by
  intro hp
  cases hp with
  | missing hinput => simp [fs.exists_of_source hsource] at hinput
  | notDirectory hworkspace => simp [halone] at hworkspace
  | unreadable _ herror => simp [hsource] at herror
  | incomplete _ hemit houtput => exact hgiven hemit houtput
  | unwritable hbuild hsource' hlog hfailed =>
    obtain rfl := Except.ok.inj (hsource.symm.trans hsource')
    rw [hwritten _ hbuild hlog] at hfailed
    cases hfailed

theorem Performs.stops_or_no_problem (h : Performs fs o config g finder r) :
    (Problem fs o config g ∧ r.outcome = .ok .failure ∧
      ∃ message, r.events = [.error message]) ∨
    ¬Problem fs o config g := by
  cases h with
  | missing hinput => exact .inl ⟨.missing hinput, rfl, _, rfl⟩
  | notDirectory hworkspace hroot => exact .inl ⟨.notDirectory hworkspace hroot, rfl, _, rfl⟩
  | incomplete halone hemit houtput => exact .inl ⟨.incomplete halone hemit houtput, rfl, _, rfl⟩
  | unreadable halone hsource => exact .inl ⟨.unreadable halone hsource, rfl, _, rfl⟩
  | failed hbuild hsource hlog hfailed =>
    exact .inl ⟨.unwritable hbuild hsource hlog hfailed, rfl, _, rfl⟩
  | badPattern hworkspace hroot => exact .inr (no_problem_of_directory hworkspace hroot)
  | checked hworkspace hroot => exact .inr (no_problem_of_directory hworkspace hroot)
  | listed halone hemit hsource =>
    refine .inr (no_problem_of_source halone hsource (by simp [hemit]) fun output hbuild => ?_)
    simp [hbuild.unlisted] at hemit
  | unclean hbuild hsource hlog =>
    exact .inr (no_problem_of_source hbuild.alone hsource (by simp [hbuild.output])
      fun _ _ hnil => absurd hnil hlog)
  | generated hbuild hsource hlog hdone =>
    refine .inr (no_problem_of_source hbuild.alone hsource (by simp [hbuild.output])
      fun output hbuild' _ => ?_)
    obtain rfl := Option.some.inj (hbuild'.output.symm.trans hbuild.output)
    exact hdone

end

theorem warning_of_mem {c : Configured} {event : Event} (h : event ∈ fs.configWarnings o c) :
    ∃ message, event = .warning message := by
  obtain hread | hpath := List.mem_append.1 h
  · obtain ⟨message, -, rfl⟩ := List.mem_map.1 hread
    exact ⟨_, rfl⟩
  · split at hpath
    · exact ⟨_, List.mem_singleton.1 hpath⟩
    · cases hpath

theorem flatMap_configWarnings {α : Type} {f : Event → List α} (hf : ∀ t, f (.warning t) = [])
    (c : Configured) : (fs.configWarnings o c).flatMap f = [] := by
  refine List.flatMap_eq_nil_iff.2 fun event hevent => ?_
  obtain ⟨message, rfl⟩ := warning_of_mem fs o hevent
  exact hf message

/-- An invocation has come to the run `r` under a configuration, and `w` is the world it left. -/
structure CameTo (e : Environment) (c : Configured) (r : Run) (w : World) : Prop where
  config : fs.configWith reader (o.configPath fs.home) = .ok c
  performed : Performs fs o c.config g finder r
  files : w.files = r.files
  orders : w.orders = r.order.toList
  calls : w.calls = (fs.configWarnings o c ++ r.events).flatMap (callsOf e.version)
  console : w.console =
    (fs.configWarnings o c ++ r.events).flatMap (e.display o c.config).shown
  diagnosed : w.diagnosed = r.events.flatMap diagnosedIn
  errors : w.errors = r.events.flatMap errorsIn
  warnings : w.warnings = (fs.configWarnings o c ++ r.events).flatMap warningsIn

variable {fs o reader}

theorem invoke_cameTo (e : Environment) (g : Generator) (finder : Glob.Finder)
    {c : Configured}
    (hc : fs.configWith reader (o.configPath fs.home) = .ok c) :
    ∃ r, (invoke e g reader finder o fs).1 = r.outcome.mapError .breakdown ∧
      CameTo fs o g reader finder e c r (invoke e g reader finder o fs).2 := by
  let r := fs.perform o c.config g finder
  have hrun : fs.runWith o g reader finder = r.after (fs.configWarnings o c) := by
    simp only [FileSystem.runWith, hc, r]
  refine ⟨r, ?_, hc, performs fs o c.config g finder, ?_, ?_, ?_, ?_, ?_, ?_, ?_⟩
  · rw [invoke_eq, hrun]
    rfl
  · rw [invoke_eq, hrun]
    rfl
  · rw [invoke_eq, hrun]
    rfl
  · rw [invoke_eq, hrun]
    rfl
  · rw [invoke_eq, hrun]
    change (fs.configWarnings o c ++ r.events).flatMap (e.display o r.config).shown = _
    rw [perform_config]
  · rw [invoke_diagnosed, hrun]
    change (fs.configWarnings o c ++ r.events).flatMap diagnosedIn = _
    rw [List.flatMap_append, flatMap_configWarnings fs o (fun _ => rfl), List.nil_append]
  · rw [invoke_errors, hrun]
    change (fs.configWarnings o c ++ r.events).flatMap errorsIn = _
    rw [List.flatMap_append, flatMap_configWarnings fs o (fun _ => rfl), List.nil_append]
  · rw [invoke_warnings, hrun]
    rfl

theorem ok_of_mapError {x : Except Breakdown Verdict} {v : Verdict}
    (h : x.mapError Thrown.breakdown = .ok v) : x = .ok v := by
  cases x with
  | error fault => cases h
  | ok v' => exact congrArg _ (Except.ok.inj h)

variable {g finder} {e : Environment}

theorem invoke_returns {v : Verdict} {w : World} (h : invoke e g reader finder o fs = (.ok v, w)) :
    ∃ c r, CameTo fs o g reader finder e c r w ∧ r.outcome = .ok v := by
  cases hc : fs.configWith reader (o.configPath fs.home) with
  | error fault =>
    rw [invoke_eq] at h
    simp only [FileSystem.runWith, hc] at h
    cases congrArg Prod.fst h
  | ok c =>
    obtain ⟨r, hr, hcame⟩ := invoke_cameTo e g finder hc
    rw [h] at hr hcame
    exact ⟨c, r, hcame, ok_of_mapError hr.symm⟩

/-- Once there is a configuration, all that can be thrown is the fault of a pattern. -/
theorem invoke_of_config (e : Environment) (g : Generator) (finder : Glob.Finder)
    {c : Configured}
    (hc : fs.configWith reader (o.configPath fs.home) = .ok c) :
    (∃ v, (invoke e g reader finder o fs).1 = .ok v) ∨
    ∃ fault, (invoke e g reader finder o fs).1 = .error (.breakdown (.pattern fault)) ∧
      o.workspace = true ∧ fs.isDirectory o.input = true ∧
      finder fs (Path.resolve fs.home o.input) c.config.included c.config.ignored =
        .error fault := by
  obtain ⟨r, hr, hcame⟩ := invoke_cameTo e g finder hc
  rw [hr]
  cases hcame.performed with
  | badPattern hworkspace hroot hfound => exact .inr ⟨_, rfl, hworkspace, hroot, hfound⟩
  | missing | notDirectory | checked | incomplete | unreadable | listed | unclean | generated
    | failed => exact .inl ⟨_, rfl⟩

end Driver

end Seanet
