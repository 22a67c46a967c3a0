import Mathlib.Data.List.Basic
import Seanet.Proofs.Config.Problems
import Seanet.Proofs.Driver.Outcomes

/-!
# The accounts of a report

A report is about the files that were found, in the order of their paths, and each file has its
section as if it were alone. The counts at the end are those of the files and of the errors shown.
The exit code in the pretty format is told from the errors alone, so it is wrong where the only
thing amiss is a file that cannot be read.
-/

set_option autoImplicit false

namespace Seanet

namespace Driver

section

variable (fs : FileSystem)

def logOf (path : Text) : Log :=
  match outcomeOf fs path with
  | .ok unit => unit.log
  | .error _ => []

def isClean (path : Text) : Bool :=
  match outcomeOf fs path with
  | .ok unit => unit.log.isEmpty
  | .error _ => false

def sectionOf (path : Text) : List Event :=
  match outcomeOf fs path with
  | .ok unit => [.compiled unit.report]
  | .error _ => []

def errorCount (files : List Text) : Nat :=
  files.foldr (fun path n => (logOf fs path).length + n) 0

def totalsOf (files : List Text) : Totals :=
  ⟨files.length, files.countP (isClean fs), files.countP (!isClean fs ·)⟩

variable (files : List Text)

theorem unitsOf_cons (path : Text) : unitsOf fs (path :: files) =
    (outcomeOf fs path).toOption.toList ++ unitsOf fs files := by
  simp only [unitsOf, List.map_cons, List.filterMap_cons]
  cases outcomeOf fs path <;> rfl

theorem faultsOf_cons (path : Text) : faultsOf fs (path :: files) =
    (faultOf? (outcomeOf fs path)).toList ++ faultsOf fs files := by
  simp only [faultsOf, List.map_cons, List.filterMap_cons]
  cases outcomeOf fs path <;> rfl

theorem length_unitsOf_add : (unitsOf fs files).length + (faultsOf fs files).length =
    files.length := by
  induction files with
  | nil => rfl
  | cons path files ih =>
    rw [unitsOf_cons, faultsOf_cons]
    cases outcomeOf fs path <;> simp [faultOf?, Except.toOption] <;> omega

theorem map_unitsOf : (unitsOf fs files).map (fun unit => Event.compiled unit.report) =
    files.flatMap (sectionOf fs) := by
  induction files with
  | nil => rfl
  | cons path files ih =>
    rw [unitsOf_cons, List.map_append, ih, List.flatMap_cons, sectionOf]
    cases outcomeOf fs path <;> rfl

theorem diagnosed_unitsOf :
    ((unitsOf fs files).map Compilation.report).flatMap (·.diagnostics) =
      files.flatMap fun path => (logOf fs path).map Report.diagnostic := by
  induction files with
  | nil => rfl
  | cons path files ih =>
    rw [unitsOf_cons, List.map_append, List.flatMap_append, ih, List.flatMap_cons, logOf]
    cases outcomeOf fs path <;> simp [Except.toOption, Compilation.report]

theorem failed_unitsOf :
    ((unitsOf fs files).map Compilation.report).countP (!·.diagnostics.isEmpty) +
      (faultsOf fs files).length = files.countP (!isClean fs ·) := by
  induction files with
  | nil => rfl
  | cons path files ih =>
    rw [unitsOf_cons, faultsOf_cons, List.countP_cons, ← ih, isClean]
    cases outcomeOf fs path with
    | error fault => simp [Except.toOption, faultOf?]; omega
    | ok unit => simp [Except.toOption, faultOf?, Compilation.report, List.countP_cons]; omega

theorem length_diagnosed :
    (files.flatMap fun path => (logOf fs path).map Report.diagnostic).length =
      errorCount fs files := by
  induction files with
  | nil => rfl
  | cons path files ih =>
    rw [List.flatMap_cons, List.length_append, ih, List.length_map]
    rfl

theorem clean_iff : errorCount fs files = 0 ∧ (faultsOf fs files).length = 0 ↔
    ∀ path ∈ files, isClean fs path = true := by
  induction files with
  | nil => simp [errorCount, faultsOf]
  | cons path files ih =>
    rw [List.forall_mem_cons, ← ih, faultsOf_cons, errorCount, List.foldr_cons, ← errorCount,
      logOf, isClean]
    cases outcomeOf fs path with
    | error fault => simp [faultOf?]
    | ok unit => simp [faultOf?, and_assoc]

theorem passed_add_failed :
    files.countP (isClean fs) + files.countP (!isClean fs ·) = files.length := by
  rw [List.length_eq_countP_add_countP (isClean fs)]
  simp

def report (v : Verdict) : List Event :=
  .opened files.length :: files.flatMap (sectionOf fs) ++
    .summarized (totalsOf fs files) (errorCount fs files) ::
      if v = .success then [.succeeded] else []

theorem conclusion_eq :
    ∃ v, Run.conclusion (unitsOf fs files) (faultsOf fs files).length =
        (report fs files v, v) ∧
      (v = .success ↔ ∀ path ∈ files, isClean fs path = true) := by
  have hpassed : (files.length : Int) - (files.countP (!isClean fs ·) : Nat) =
      (files.countP (isClean fs) : Nat) := by
    have hsum := passed_add_failed fs files
    omega
  unfold Run.conclusion
  simp only [diagnosed_unitsOf, length_diagnosed, length_unitsOf_add, failed_unitsOf, List.map_map]
  rw [show Event.compiled ∘ Compilation.report = fun unit => Event.compiled unit.report from rfl,
    map_unitsOf, ← clean_iff, hpassed]
  by_cases hclean : errorCount fs files = 0 ∧ (faultsOf fs files).length = 0
  · refine ⟨.success, ?_, iff_of_true rfl hclean⟩
    rw [if_pos hclean]
    simp [report, totalsOf]
  · refine ⟨.failure, ?_, iff_of_false (by decide) hclean⟩
    rw [if_neg hclean]
    simp [report, totalsOf]

end

def Call.isNotice : Call → Bool
  | .warning _ | .error _ | .info _ => true
  | _ => false

def isNotice (event : Event) : Bool := (callsOf [] event).all Call.isNotice

def diagnosticLine (r : Reporter) (x : Report) : Line :=
  match r.format with
  | .plain => ⟨.error, formatError x.file x.place x.message⟩
  | _ => Reporter.log (r.formatDiagnostic x.diagnostic)

def noIssues (r : Reporter) : Line :=
  Reporter.log ("  " ++ r.paint [.green] "✓" ++ " " ++ r.paint [.green] "No issues found")

theorem shown_compiled (d : Display) (unit : Compilation) :
    d.shown (.compiled unit.report) = d.reporter.header unit.report ++
      if d.reporter.format = .pretty ∧ unit.log = [] then [noIssues d.reporter]
      else unit.log.map (diagnosticLine d.reporter) := by
  have hlines : d.shown (.compiled unit.report) =
      d.reporter.header unit.report ++ d.reporter.diagnostics unit.report := by
    simp [Display.shown, callsOf, Display.lines]
  rw [hlines]
  refine congrArg _ ?_
  unfold Reporter.diagnostics diagnosticLine noIssues Compilation.report
  cases d.reporter.format with
  | pretty => cases unit.log <;> simp
  | plain => simp [Report.formatted, Function.comp_def]
  | json => simp [Function.comp_def]
  | compact => simp [Function.comp_def]

/-- The exit code that the pretty format shows. -/
def shownCode (errors : Nat) : Nat := if 0 < errors then 1 else 0

theorem shown_summarized {d : Display} (h : d.reporter.format = .pretty) (totals : Totals)
    (errors : Nat) :
    ∃ styles, (d.shown (.summarized totals errors)).getLast? = some (Reporter.log
      (d.reporter.paint styles ("Exit code: " ++ Text.ofNat (shownCode errors)))) := by
  have hcode : Text.ofNat (shownCode errors) =
      if 0 < (errors : Int) then Text.ofString "1" else Text.ofString "0" := by
    by_cases herrors : 0 < errors
    · rw [if_pos (by omega), shownCode, if_pos herrors]
      rfl
    · rw [if_neg (by omega), shownCode, if_neg herrors]
      rfl
  refine ⟨[if 0 < (errors : Int) then .red else .green], ?_⟩
  rw [hcode]
  simp only [Display.shown, callsOf, Display.lines, Reporter.summary, h, List.flatMap_cons,
    List.flatMap_nil, List.append_nil]
  rfl

def Matches (fs : FileSystem) (o : Options) (config : Config) (finder : Glob.Finder)
    (paths : List Text) : Prop :=
  if o.workspace then
    finder fs (Path.resolve fs.home o.input) config.included config.ignored = .ok paths
  else paths = [o.input]

/-- A run reports on files, in the order given, and ends with a verdict. -/
structure Reports (fs : FileSystem) (files : List Text) (v : Verdict) (r : Run) : Prop where
  events : ∃ before, (∀ event ∈ before, isNotice event = true) ∧
    before.flatMap errorsIn = (faultsOf fs files).map FileAccessError.message ∧
    r.events = before ++ report fs files v
  verdict : v = .success ↔ ∀ path ∈ files, isClean fs path = true

section

variable {fs : FileSystem} {o : Options} {config : Config} {g : Generator} {finder : Glob.Finder}
  {r : Run} {v : Verdict} {before : List Event} {order : Option Order} {after : FileSystem}

theorem reports_of_concluded {files : List Text}
    (hnotice : ∀ event ∈ before, isNotice event = true)
    (herrors : before.flatMap errorsIn = (faultsOf fs files).map FileAccessError.message)
    (hv : (Run.concluded config before (unitsOf fs files) (faultsOf fs files).length order
      after).outcome = .ok v) :
    Reports fs files v (.concluded config before (unitsOf fs files) (faultsOf fs files).length
      order after) := by
  obtain ⟨v', hconclusion, hclean⟩ := conclusion_eq fs files
  simp only [Run.concluded, hconclusion] at hv ⊢
  obtain rfl := Except.ok.inj hv
  exact ⟨⟨before, hnotice, herrors, rfl⟩, hclean⟩

theorem isNotice_scanning (fs : FileSystem) (root : Text) (count : Nat) (files : List Text) :
    ∀ event ∈ scanning fs root count files, isNotice event = true := by
  intro event hevent
  simp only [scanning, List.cons_append, List.nil_append, List.mem_cons, List.mem_map] at hevent
  obtain rfl | rfl | ⟨_, -, rfl⟩ := hevent <;> rfl

theorem errors_scanning (fs : FileSystem) (root : Text) (count : Nat) (files : List Text) :
    (scanning fs root count files).flatMap errorsIn =
      (faultsOf fs files).map FileAccessError.message := by
  simp [scanning, errorsIn, List.flatMap_map, ← List.map_eq_flatMap]

theorem reports_of_alone {path : Text} {source : Source} (hsource : fs.source path = .ok source)
    (hnotice : ∀ event ∈ before, isNotice event = true)
    (herrors : before.flatMap errorsIn = [])
    (hv : (Run.concluded config before [source.compile] 0 order after).outcome = .ok v) :
    Reports fs ([path].mergeSort Text.le) v
      (.concluded config before [source.compile] 0 order after) := by
  have hunits : unitsOf fs [path] = [source.compile] := by
    simp [unitsOf, outcomeOf_ok hsource, Except.toOption]
  have hfaults : faultsOf fs [path] = [] := by simp [faultsOf, outcomeOf_ok hsource, faultOf?]
  rw [List.mergeSort_singleton]
  rw [← hunits, ← List.length_nil, ← hfaults] at hv ⊢
  exact reports_of_concluded hnotice (by rw [herrors, hfaults, List.map_nil]) hv

theorem Performs.reports (h : Performs fs o config g finder r) (hnot : ¬Problem fs o config g)
    (hv : r.outcome = .ok v) :
    ∃ paths, Matches fs o config finder paths ∧ Reports fs (paths.mergeSort Text.le) v r := by
  unfold Matches
  cases h with
  | missing hinput => exact absurd (.missing hinput) hnot
  | notDirectory hworkspace hroot => exact absurd (.notDirectory hworkspace hroot) hnot
  | incomplete halone hemit houtput => exact absurd (.incomplete halone hemit houtput) hnot
  | unreadable halone hsource => exact absurd (.unreadable halone hsource) hnot
  | failed hbuild hsource hlog hfailed =>
    exact absurd (.unwritable hbuild hsource hlog hfailed) hnot
  | badPattern => cases hv
  | checked hworkspace hroot hfound =>
    exact ⟨_, by rwa [if_pos hworkspace],
      reports_of_concluded (isNotice_scanning _ _ _ _) (errors_scanning _ _ _ _) hv⟩
  | listed halone _ hsource =>
    refine ⟨[o.input], by simp [halone], reports_of_alone hsource ?_ ?_ hv⟩
    · intro event hevent
      obtain ⟨_, -, rfl⟩ := List.mem_map.1 hevent
      rfl
    · simp [errorsIn, List.flatMap_map]
  | unclean hbuild hsource hlog =>
    exact ⟨[o.input], by simp [hbuild.alone], reports_of_alone hsource (by simp) rfl hv⟩
  | generated hbuild hsource hlog hdone =>
    exact ⟨[o.input], by simp [hbuild.alone], reports_of_alone hsource (by simp) rfl hv⟩

end

def World.Summarized (w : World) : Prop :=
  ∃ totals errors, Call.summary totals errors ∈ w.calls

/-- An invocation has stopped with one error and no report. -/
structure Stops (d : Display) (v : Verdict) (w : World) : Prop where
  verdict : v = .failure
  error : ∃ message, w.errors = [message] ∧
    w.console.filter (·.channel == .error) = [d.reporter.error message]
  silent : ∀ call ∈ w.calls, call.isNotice = true

theorem Stops.not_summarized {d : Display} {v : Verdict} {w : World} (h : Stops d v w) :
    ¬w.Summarized := by
  rintro ⟨totals, errors, hcall⟩
  have hnotice := h.silent _ hcall
  cases hnotice

/-- An invocation has given its report on files, in the order given. -/
structure Accounts (d : Display) (fs : FileSystem) (files : List Text) (v : Verdict) (w : World) :
    Prop where
  told : ∃ before, (∀ event ∈ before, isNotice event = true) ∧
    w.calls = (before ++ report fs files v).flatMap (callsOf d.environment.version) ∧
    w.console = (before ++ report fs files v).flatMap d.shown
  errors : w.errors = (faultsOf fs files).map FileAccessError.message
  diagnosed : w.diagnosed = files.flatMap fun path => (logOf fs path).map Report.diagnostic
  counted : errorCount fs files = w.diagnosed.length
  balanced : (totalsOf fs files).passed + (totalsOf fs files).failed = (totalsOf fs files).total
  verdict : v = .success ↔ ∀ path ∈ files, isClean fs path = true
  sections : ∀ path ∈ files, ∀ unit, outcomeOf fs path = .ok unit →
    d.shown (.compiled unit.report) = d.reporter.header unit.report ++
      if d.reporter.format = .pretty ∧ unit.log = [] then [noIssues d.reporter]
      else unit.log.map (diagnosticLine d.reporter)
  exitLine : d.reporter.format = .pretty → ∃ styles,
    (d.shown (.summarized (totalsOf fs files) (errorCount fs files))).getLast? =
      some (Reporter.log (d.reporter.paint styles
        ("Exit code: " ++ Text.ofNat (shownCode (errorCount fs files)))))
  /-- The code that is shown is right unless the only thing amiss is that files cannot be read. -/
  exitCode : shownCode (errorCount fs files) = v.exitCode ↔
    (errorCount fs files = 0 → faultsOf fs files = [])

theorem Accounts.summarized {d : Display} {fs : FileSystem} {files : List Text} {v : Verdict}
    {w : World} (h : Accounts d fs files v w) : w.Summarized := by
  obtain ⟨before, -, hcalls, -⟩ := h.told
  refine ⟨totalsOf fs files, errorCount fs files, ?_⟩
  rw [hcalls]
  refine List.mem_flatMap.2 ⟨.summarized (totalsOf fs files) (errorCount fs files), ?_, ?_⟩
  · simp [report]
  · simp [callsOf]

section

variable {e : Environment} {g : Generator} {reader : Config.Reader} {finder : Glob.Finder}
  {o : Options} {fs : FileSystem} {c : Configured} {r : Run} {w : World} {v : Verdict}

theorem callsOf_isNotice {event : Event} (h : isNotice event = true) (version : Text) :
    ∀ call ∈ callsOf version event, call.isNotice = true := by
  cases event <;> simp_all [isNotice, callsOf, Call.isNotice]

@[simp] theorem warning_channel (r : Reporter) (message : Text) :
    (r.warning message).channel = .warn := by
  unfold Reporter.warning
  split <;> rfl

@[simp] theorem error_channel (r : Reporter) (message : Text) :
    (r.error message).channel = .error := by
  unfold Reporter.error
  split <;> rfl

theorem CameTo.stops (hcame : CameTo fs o g reader finder e c r w) (hv : v = .failure)
    {message : Text} (hevents : r.events = [.error message]) :
    Stops (e.display o c.config) v w where
  verdict := hv
  error := by
    refine ⟨message, by rw [hcame.errors, hevents]; rfl, ?_⟩
    let onError (event : Event) : List Line :=
      ((e.display o c.config).shown event).filter (·.channel == .error)
    have hwarned : ∀ t, onError (.warning t) = [] := by
      intro t
      simp [onError, Display.shown, callsOf, Display.lines]
    rw [hcame.console, List.filter_flatMap, List.flatMap_append,
      flatMap_configWarnings fs o hwarned, hevents]
    simp [Display.shown, callsOf, Display.lines]
  silent := by
    intro call hcall
    rw [hcame.calls, hevents] at hcall
    obtain ⟨event, hevent, hcall⟩ := List.mem_flatMap.1 hcall
    refine callsOf_isNotice ?_ e.version call hcall
    obtain hwarning | herror := List.mem_append.1 hevent
    · obtain ⟨_, rfl⟩ := warning_of_mem fs o hwarning
      rfl
    · rw [List.mem_singleton.1 herror]
      rfl

theorem diagnosed_report (fs : FileSystem) (files : List Text) (v : Verdict) :
    (report fs files v).flatMap diagnosedIn =
      files.flatMap fun path => (logOf fs path).map Report.diagnostic := by
  have hsection : ∀ path, (sectionOf fs path).flatMap diagnosedIn =
      (logOf fs path).map Report.diagnostic := by
    intro path
    unfold sectionOf logOf
    cases outcomeOf fs path <;> simp [diagnosedIn, Compilation.report]
  cases v <;> simp [report, diagnosedIn, List.flatMap_append, List.flatMap_assoc, hsection]

theorem errors_report (fs : FileSystem) (files : List Text) (v : Verdict) :
    (report fs files v).flatMap errorsIn = [] := by
  have hsection : ∀ path, (sectionOf fs path).flatMap errorsIn = [] := by
    intro path
    unfold sectionOf
    cases outcomeOf fs path <;> rfl
  cases v <;> simp [report, errorsIn, List.flatMap_append, List.flatMap_assoc, hsection]

theorem shownCode_eq_iff {files : List Text}
    (hv : v = .success ↔ ∀ path ∈ files, isClean fs path = true) :
    shownCode (errorCount fs files) = v.exitCode ↔
      (errorCount fs files = 0 → faultsOf fs files = []) := by
  rw [← clean_iff, List.length_eq_zero_iff] at hv
  unfold shownCode
  cases v with
  | success =>
    obtain ⟨herrors, hfaults⟩ := hv.1 rfl
    simp [herrors, hfaults, Verdict.exitCode]
  | failure =>
    have hnot : ¬(errorCount fs files = 0 ∧ faultsOf fs files = []) :=
      fun hboth => nomatch hv.2 hboth
    by_cases herrors : errorCount fs files = 0
    · simp [herrors, Verdict.exitCode] at hnot ⊢
      exact hnot
    · simp [herrors, Nat.pos_of_ne_zero herrors, Verdict.exitCode]

theorem CameTo.accounts (hcame : CameTo fs o g reader finder e c r w) {files : List Text}
    (hr : Reports fs files v r) : Accounts (e.display o c.config) fs files v w := by
  obtain ⟨before, hnotice, herrors, hevents⟩ := hr.events
  have hsilent : before.flatMap diagnosedIn = [] := by
    refine List.flatMap_eq_nil_iff.2 fun event hevent => ?_
    have hevent := hnotice event hevent
    cases event <;> simp_all [isNotice, callsOf, Call.isNotice, diagnosedIn]
  have hdiagnosed : w.diagnosed =
      files.flatMap fun path => (logOf fs path).map Report.diagnostic := by
    rw [hcame.diagnosed, hevents, List.flatMap_append, hsilent, diagnosed_report, List.nil_append]
  refine ⟨⟨fs.configWarnings o c ++ before, ?_, ?_, ?_⟩, ?_, hdiagnosed, ?_, ?_, hr.verdict,
    fun _ _ unit _ => shown_compiled _ unit, fun h => shown_summarized h _ _,
    shownCode_eq_iff hr.verdict⟩
  · intro event hevent
    obtain hwarning | hbefore := List.mem_append.1 hevent
    · obtain ⟨_, rfl⟩ := warning_of_mem fs o hwarning
      rfl
    · exact hnotice event hbefore
  · rw [hcame.calls, hevents, List.append_assoc]
    rfl
  · rw [hcame.console, hevents, List.append_assoc]
  · rw [hcame.errors, hevents, List.flatMap_append, errors_report, List.append_nil, herrors]
  · rw [hdiagnosed, length_diagnosed]
  · have hsum := passed_add_failed fs files
    simp only [totalsOf]
    omega

end

/-- All that matters of a finder is what it finds for the one search. -/
theorem invoke_finder_congr {e : Environment} {g : Generator} {reader : Config.Reader}
    {finder finder' : Glob.Finder} {o : Options} {fs : FileSystem} {c : Configured}
    (hc : fs.configWith reader (o.configPath fs.home) = .ok c)
    (h : finder fs (Path.resolve fs.home o.input) c.config.included c.config.ignored =
      finder' fs (Path.resolve fs.home o.input) c.config.included c.config.ignored) :
    invoke e g reader finder o fs = invoke e g reader finder' o fs := by
  have hcheck : fs.check c.config o.input finder = fs.check c.config o.input finder' := by
    simp only [FileSystem.check, h]
  have hrun : fs.runWith o g reader finder = fs.runWith o g reader finder' := by
    simp only [FileSystem.runWith, hc, FileSystem.perform, hcheck]
  rw [invoke_eq, invoke_eq, hrun]

theorem ok_of_toOption {ε α : Type} {x : Except ε α} {a : α} (h : x.toOption = some a) :
    x = .ok a := by
  cases x with
  | error t => cases h
  | ok b => exact congrArg _ (Option.some.inj h)

/-- An invocation that ends with a verdict sums up a report unless there is a problem with the input
or the output. With a report, it has given its accounts of the files that were found, in the order
of their paths; without, it has stopped with one error. -/
theorem run_accounts {e : Environment} {g : Generator} {reader : Config.Reader}
    {finder : Glob.Finder} {o : Options} {fs : FileSystem} {v : Verdict} {w : World}
    (h : invoke e g reader finder o fs = (.ok v, w)) :
    ∃ c, fs.configWith reader (o.configPath fs.home) = .ok c ∧
      (w.Summarized ↔ ¬Problem fs o c.config g) ∧
      (w.Summarized → ∃ paths files, Matches fs o c.config finder paths ∧ files.Perm paths ∧
        files.Pairwise (fun s t => Text.le s t = true) ∧
        Accounts (e.display o c.config) fs files v w) ∧
      (¬w.Summarized → Stops (e.display o c.config) v w) := by
  obtain ⟨c, r, hcame, hv⟩ := invoke_returns h
  refine ⟨c, hcame.config, ?_⟩
  obtain ⟨hp, hfailure, message, hevents⟩ | hnot := hcame.performed.stops_or_no_problem
  · have hverdict : v = .failure := Except.ok.inj (hv.symm.trans hfailure)
    have hstops := hcame.stops hverdict hevents
    exact ⟨iff_of_false hstops.not_summarized (not_not_intro hp),
      fun hsum => absurd hsum hstops.not_summarized, fun _ => hstops⟩
  · obtain ⟨paths, hmatches, hreports⟩ := hcame.performed.reports hnot hv
    have haccounts := hcame.accounts hreports
    refine ⟨iff_of_true haccounts.summarized hnot, fun _ => ?_,
      fun hsum => absurd haccounts.summarized hsum⟩
    exact ⟨paths, paths.mergeSort Text.le, hmatches, List.mergeSort_perm _ _,
      List.pairwise_mergeSort Text.le_trans Text.le_total paths, haccounts⟩

/-- A workspace whose one file holds a stray character. -/
theorem run_accounts_workspace :
    let fs : FileSystem := ⟨["w"], [(["w", "ws"], .directory), (["w", "ws", "a.sn"], .file [0x40])]⟩
    let o : Options := ⟨"ws", none, none, some "plain", none, none, none, true⟩
    let e : Environment := ⟨⟨false, false, false⟩, "1", 0, 0, 0⟩
    ∃ w, invoke e .standIn Yaml.reader Glob.find o fs = (.ok .failure, w) ∧
      ∃ c paths files, Matches fs o c Glob.find paths ∧ files.Perm paths ∧
        files.Pairwise (fun s t => Text.le s t = true) ∧
        Accounts (e.display o c) fs files .failure w := by
  intro fs o e
  let found : Glob.Finder := fun _ _ _ _ => .ok [Text.ofString "/w/ws/a.sn"]
  have hconfig : fs.configWith Yaml.reader (o.configPath fs.home) = .ok .default :=
    FileSystem.configWith_of_missing (by decide +kernel)
  have hfound : Glob.find fs (Path.resolve fs.home o.input) [Text.ofString "**/*.sn"] [] =
      .ok [Text.ofString "/w/ws/a.sn"] := by
    cbv
  have hinvoke : invoke e .standIn Yaml.reader Glob.find o fs =
      invoke e .standIn Yaml.reader found o fs :=
    invoke_finder_congr hconfig hfound
  have hfails : (invoke e .standIn Yaml.reader found o fs).1.toOption = some .failure := by
    decide +kernel
  have hreturns : invoke e .standIn Yaml.reader Glob.find o fs =
      (.ok .failure, (invoke e .standIn Yaml.reader found o fs).2) := by
    rw [hinvoke]
    exact Prod.ext (ok_of_toOption hfails) rfl
  obtain ⟨c, -, hsummarized, haccounts, -⟩ := run_accounts hreturns
  have hnot : ¬Problem fs o c.config .standIn := no_problem_of_directory rfl (by decide +kernel)
  exact ⟨_, hreturns, c.config, haccounts (hsummarized.2 hnot)⟩

/-- A workspace whose one file is found under a path that leads nowhere: the run fails, and the exit
code it shows is that of success. -/
theorem exit_code_shown_wrong :
    let fs : FileSystem := ⟨["w"], [(["w", "ws"], .directory), (["w", "ws", "a\\b.sn"], .file [])]⟩
    let o : Options := ⟨"ws", none, none, some "pretty", none, none, none, true⟩
    let e : Environment := ⟨⟨false, false, false⟩, "1", 0, 0, 0⟩
    ∃ w, invoke e .standIn Yaml.reader Glob.find o fs = (.ok .failure, w) ∧
      w.console.getLast? = some (Reporter.log "Exit code: 0") := by
  intro fs o e
  let found : Glob.Finder := fun _ _ _ _ => .ok [Text.ofString "/w/ws/a/b.sn"]
  have hconfig : fs.configWith Yaml.reader (o.configPath fs.home) = .ok .default :=
    FileSystem.configWith_of_missing (by decide +kernel)
  have hfound : Glob.find fs (Path.resolve fs.home o.input) [Text.ofString "**/*.sn"] [] =
      .ok [Text.ofString "/w/ws/a/b.sn"] := by
    cbv
  have hinvoke : invoke e .standIn Yaml.reader Glob.find o fs =
      invoke e .standIn Yaml.reader found o fs :=
    invoke_finder_congr hconfig hfound
  rw [hinvoke]
  refine ⟨_, Prod.ext (ok_of_toOption ?_) rfl, ?_⟩
  · decide +kernel
  · decide +kernel

end Driver

end Seanet
