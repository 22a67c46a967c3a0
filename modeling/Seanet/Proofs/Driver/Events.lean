import Seanet.Proofs.Driver.Program

/-!
# What an invocation amounts to

The driver prints as it goes; `FileSystem.runWith` tells what happens and leaves the printing to a
reporter. The two agree: the driver gives the same outcome and the same files, asks the code
generator for the same, and has printed what its reporter shows of the events, in their order.
-/

set_option autoImplicit false

namespace Seanet

namespace Driver

section

variable {α β : Type}

@[simp] theorem exec_pure (a : α) (w : World) : exec (pure a) w = (.ok a, w) := rfl

@[simp] theorem exec_throw (t : Thrown) (w : World) :
    exec (throw t : Action α) w = (.error t, w) := rfl

theorem exec_bind (a : Action α) (f : α → Action β) (w : World) :
    exec (a >>= f) w =
      match exec a w with
      | (.ok x, w') => exec (f x) w'
      | (.error t, w') => (.error t, w') := by
  change StateT.run (ExceptT.bind a f) w = _
  unfold ExceptT.bind
  rcases h : exec a w with ⟨x | x, w'⟩
  all_goals
    change StateT.run a w = _ at h
    simp only [ExceptT.mk, StateT.run_bind, h]
    rfl

theorem exec_bind_ok {a : Action α} {f : α → Action β} {x : α} {w w' : World}
    (h : exec a w = (.ok x, w')) : exec (a >>= f) w = exec (f x) w' := by
  rw [exec_bind, h]

@[simp] theorem exec_get_bind (f : World → Action β) (w : World) :
    exec (get >>= f) w = exec (f w) w := rfl

theorem exec_map_ok (f : α → β) {a : Action α} {x : α} {w w' : World}
    (h : exec a w = (.ok x, w')) : exec (f <$> a) w = (.ok (f x), w') := by
  change exec (a >>= fun x => pure (f x)) w = _
  rw [exec_bind_ok h, exec_pure]

theorem exec_tryCatch (a : Action α) (handle : Thrown → Action α) (w : World) :
    exec (tryCatch a handle) w =
      match exec a w with
      | (.ok x, w') => (.ok x, w')
      | (.error t, w') => exec (handle t) w' := by
  change StateT.run (ExceptT.tryCatch a handle) w = _
  unfold ExceptT.tryCatch
  rcases h : exec a w with ⟨x | x, w'⟩
  all_goals
    change StateT.run a w = _ at h
    simp only [ExceptT.mk, StateT.run_bind, h]
    rfl

end

def callsOf (version : Text) : Event → List Call
  | .warning message => [.warning message]
  | .error message => [.error message]
  | .info message => [.info message]
  | .listed _ => []
  | .opened count => [.banner version count]
  | .compiled report => [.header report, .diagnostics report]
  | .summarized totals errors => [.summary totals errors]
  | .succeeded => [.success]

def Display.shown (d : Display) : Event → List Line
  | .listed line => [Reporter.log line]
  | e => (callsOf d.environment.version e).flatMap d.lines

theorem Display.shown_eq (d : Display) (now : Int) (ho : d.environment.opened = now)
    (hs : d.environment.summed = now) (e : Event) :
    d.shown e = d.reporter.lines now d.environment.version e := by
  cases e <;> simp [shown, callsOf, lines, Reporter.lines, ho, hs]

namespace World

def tell (w : World) (d : Display) (events : List Event) : World :=
  { w with
    console := w.console ++ events.flatMap d.shown
    calls := w.calls ++ events.flatMap (callsOf d.environment.version) }

variable (w : World) (d : Display) (events later : List Event)

@[simp] theorem tell_files : (w.tell d events).files = w.files := rfl

theorem tell_nil : w.tell d [] = w := by
  simp [World.tell]

theorem tell_tell : (w.tell d events).tell d later = w.tell d (events ++ later) := by
  simp [World.tell]

def changed (files : FileSystem) (order : Option Order) : World :=
  { w with files, orders := w.orders ++ order.toList }

theorem changed_none : w.changed w.files none = w := by
  simp [changed]

theorem changed_tell (files : FileSystem) (order : Option Order) :
    (w.changed files order).tell d events = (w.tell d events).changed files order := rfl

end World

open World

section

variable (d : Display) (w : World)

theorem exec_say {e : Event} {c : Call} (h : callsOf d.environment.version e = [c]) :
    exec (say d c) w = (.ok (), w.tell d [e]) := by
  have hlines : d.shown e = d.lines c := by
    cases e <;> simp_all [Display.shown, callsOf]
  change (Except.ok (), { w with console := _, calls := _ }) = _
  simp [World.tell, h, hlines]

theorem exec_say_bind {β : Type} {e : Event} {c : Call}
    (h : callsOf d.environment.version e = [c]) (f : Unit → Action β) :
    exec (say d c >>= f) w = exec (f ()) (w.tell d [e]) :=
  exec_bind_ok (exec_say d w h)

theorem exec_print (t : Text) : exec (print t) w = (.ok (), w.tell d [.listed t]) := by
  change (Except.ok (), { w with console := _ }) = _
  simp [World.tell, Display.shown, callsOf]

theorem exec_forM {γ : Type} {act : γ → Action Unit} {event : γ → Event}
    (h : ∀ x w, exec (act x) w = (.ok (), w.tell d [event x])) (xs : List γ) :
    exec (xs.forM act) w = (.ok (), w.tell d (xs.map event)) := by
  induction xs generalizing w with
  | nil => simp [tell_nil]
  | cons x xs ih =>
    change exec (act x >>= fun _ => xs.forM act) w = _
    rw [exec_bind_ok (h x w), ih, tell_tell]
    rfl

end

section

variable (d : Display) (g : Generator) (w : World)

theorem exec_readSource (path : Text) :
    exec (readSource path) w =
      match w.files.source path with
      | .ok source => (.ok source, w)
      | .error fault => (.error (.access fault), w) := by
  rw [readSource, exec_get_bind]
  cases w.files.source path <;> rfl

theorem exec_generate (order : Order) :
    exec (generate g order) w =
      let after : World := { w with files := (g order w.files).1, orders := w.orders ++ [order] }
      match (g order w.files).2 with
      | none => (.ok (), after)
      | some cause => (.error (.access ⟨.write, order.outputPath, cause⟩), after) := by
  rw [generate, exec_get_bind]
  rcases g order w.files with ⟨files, _ | cause⟩ <;> rfl

theorem exec_compileFile (input : Text) (output : Option Text) (kind : OutputKind) :
    exec (compileFile g input (output.map (·, kind))) w =
      let b := w.files.build input output kind g
      (match b.result with
        | .ok (unit, _) => .ok unit
        | .error fault => .error (.access fault),
      w.changed b.files b.order) := by
  rw [compileFile, exec_bind, exec_readSource, FileSystem.build]
  cases w.files.source input with
  | error fault => simp [changed]
  | ok source =>
    cases output with
    | none => simp [changed]
    | some path =>
      by_cases hpath : path.isEmpty
      · simp [Option.filter, hpath, changed]
      by_cases hclean : source.compile.isClean
      · simp only [Option.filter, hpath, hclean, Option.map_some, exec_bind, exec_generate,
          Bool.not_true, Bool.or_self, Bool.not_false, Bool.false_eq_true, if_true, if_false]
        rcases g _ w.files with ⟨files, _ | cause⟩ <;> simp [changed]
      · simp [Option.filter, hpath, hclean, changed]

variable {g w}

theorem exec_compileOrReport_ok {input : Text} {output path : Option Text} {kind : OutputKind}
    {unit : Compilation} {order : Option Order} {files : FileSystem}
    (h : w.files.build input output kind g = ⟨.ok (unit, path), order, files⟩) :
    exec (compileOrReport d g input (output.map (·, kind))) w =
      (.ok (some unit), w.changed files order) := by
  have hok : exec (compileFile g input (output.map (·, kind))) w =
      (.ok unit, w.changed files order) := by
    rw [exec_compileFile, h]
  rw [compileOrReport, exec_tryCatch, exec_map_ok some hok]

theorem exec_compileOrReport_error {input : Text} {output : Option Text} {kind : OutputKind}
    {fault : FileAccessError} {order : Option Order} {files : FileSystem}
    (h : w.files.build input output kind g = ⟨.error fault, order, files⟩) :
    exec (compileOrReport d g input (output.map (·, kind))) w =
      (.ok none, (w.tell d [.error fault.message]).changed files order) := by
  have hthrown : exec (some <$> compileFile g input (output.map (·, kind))) w =
      (.error (.access fault), w.changed files order) := by
    change exec (compileFile g input (output.map (·, kind)) >>= fun x => pure (some x)) w = _
    rw [exec_bind, exec_compileFile, h]
  rw [compileOrReport, exec_tryCatch, hthrown]
  change exec (say d (.error fault.message) >>= fun _ => pure none) _ = _
  rw [exec_say_bind d _ (e := .error fault.message) rfl, exec_pure, changed_tell]

theorem exec_compileOrReport (input : Text) :
    exec (compileOrReport d g input none) w =
      match w.files.source input with
      | .ok source => (.ok (some source.compile), w)
      | .error fault => (.ok none, w.tell d [.error fault.message]) := by
  cases hs : w.files.source input with
  | ok source =>
    have h : w.files.build input none .executable g =
        ⟨.ok (source.compile, none), none, w.files⟩ := by
      simp [FileSystem.build, hs]
    have hexec := exec_compileOrReport_ok d h
    rwa [changed_none] at hexec
  | error fault =>
    have h : w.files.build input none .executable g = ⟨.error fault, none, w.files⟩ := by
      simp [FileSystem.build, hs]
    have hexec := exec_compileOrReport_error d h
    rwa [← changed_tell, changed_none] at hexec

/-- What comes of one file, whatever other files there are. -/
def outcomeOf (fs : FileSystem) (path : Text) : Except FileAccessError Compilation :=
  (fs.source path).map Source.compile

theorem outcomeOf_ok {fs : FileSystem} {path : Text} {source : Source}
    (h : fs.source path = .ok source) : outcomeOf fs path = .ok source.compile := by
  rw [outcomeOf, h]
  rfl

theorem outcomeOf_error {fs : FileSystem} {path : Text} {fault : FileAccessError}
    (h : fs.source path = .error fault) : outcomeOf fs path = .error fault := by
  rw [outcomeOf, h]
  rfl

def faultOf? : Except FileAccessError Compilation → Option FileAccessError
  | .error fault => some fault
  | .ok _ => none

def unitsOf (fs : FileSystem) (paths : List Text) : List Compilation :=
  (paths.map (outcomeOf fs)).filterMap Except.toOption

def faultsOf (fs : FileSystem) (paths : List Text) : List FileAccessError :=
  (paths.map (outcomeOf fs)).filterMap faultOf?

theorem exec_compileEach (files : List Text) (units : List Compilation) (n : Nat) :
    exec (compileEach d g files units n) w =
      (.ok (units ++ unitsOf w.files files, n + (faultsOf w.files files).length),
        w.tell d ((faultsOf w.files files).map (.error ·.message))) := by
  induction files generalizing w units n with
  | nil => simp [compileEach, tell_nil, unitsOf, faultsOf]
  | cons file files ih =>
    rw [compileEach, exec_bind, exec_compileOrReport]
    cases hs : w.files.source file with
    | ok source =>
      simp only [ih, unitsOf, faultsOf, List.map_cons, outcomeOf_ok hs, List.filterMap_cons,
        Except.toOption, faultOf?, List.append_assoc, List.cons_append, List.nil_append]
    | error fault =>
      simp only [ih, unitsOf, faultsOf, List.map_cons, outcomeOf_error hs, List.filterMap_cons,
        Except.toOption, faultOf?, tell_files, tell_tell, List.length_cons, List.cons_append,
        List.nil_append]
      rw [Nat.add_right_comm, Nat.add_assoc]

theorem checkFiles_eq (fs : FileSystem) (config : Config) (paths : List Text) :
    fs.checkFiles config paths =
      let sorted := paths.mergeSort Text.le
      .concluded config ((faultsOf fs sorted).map (.error ·.message)) (unitsOf fs sorted)
        (faultsOf fs sorted).length none fs := by
  unfold FileSystem.checkFiles
  congr

theorem exec_sayReport {β : Type} (report : FileReport) (f : Unit → Action β) :
    exec (say d (.header report) >>= fun _ => say d (.diagnostics report) >>= f) w =
      exec (f ()) (w.tell d [.compiled report]) := by
  have hcalls : exec (say d (.header report) >>= fun _ => say d (.diagnostics report)) w =
      (.ok (), w.tell d [.compiled report]) := by
    change (Except.ok (), { w with console := _, calls := _ }) = _
    simp [World.tell, Display.shown, callsOf]
  rw [← exec_bind_ok hcalls]
  rfl

theorem exec_reportEach (units : List Compilation) (errors failed : Nat) :
    exec (reportEach d units errors failed) w =
      let reports := units.map Compilation.report
      (.ok (errors + (reports.flatMap (·.diagnostics)).length,
          failed + reports.countP (!·.diagnostics.isEmpty)),
        w.tell d (reports.map .compiled)) := by
  induction units generalizing w errors failed with
  | nil => simp [reportEach, tell_nil]
  | cons unit units ih =>
    have hfailed : (if 0 < unit.report.diagnostics.length then failed + 1 else failed) =
        failed + if !unit.report.diagnostics.isEmpty then 1 else 0 := by
      cases unit.report.diagnostics <;> simp
    rw [reportEach, exec_sayReport, ih, hfailed]
    simp only [tell_tell, List.map_cons, List.flatMap_cons, List.length_append, List.countP_cons]
    refine Prod.ext ?_ rfl
    simp only [Except.ok.injEq, Prod.mk.injEq]
    omega

theorem exec_summarize (units : List Compilation) (n : Nat) :
    exec (summarize d units n) w =
      (.ok (Run.conclusion units n).2, w.tell d (Run.conclusion units n).1) := by
  rw [summarize, exec_say_bind d w (e := .opened (units.length + n)) rfl,
    exec_bind_ok (exec_reportEach d units 0 0)]
  simp only [Nat.zero_add, Run.conclusion]
  generalize ((units.map Compilation.report).flatMap (·.diagnostics)).length = errors
  generalize (units.map Compilation.report).countP (!·.diagnostics.isEmpty) + n = failed
  rw [exec_say_bind d _ (e := .summarized ⟨(units.length + n : Nat), _, failed⟩ errors) rfl]
  by_cases h : errors = 0 ∧ n = 0
  · have hnone : ¬(0 < errors ∨ 0 < n) := by omega
    rw [if_neg hnone, if_pos h, exec_say_bind d _ (e := .succeeded) rfl, exec_pure]
    simp only [tell_tell]
    simp
  · have hsome : 0 < errors ∨ 0 < n := by omega
    rw [if_pos hsome, if_neg h, exec_pure]
    simp only [tell_tell]
    simp

theorem exec_warnOfConfig (o : Options) (c : Configured) :
    exec (warnOfConfig d o c) w = (.ok (), w.tell d (w.files.configWarnings o c)) := by
  have hread := exec_forM d w
    (fun (t : Text) w => exec_say d w (e := .warning ("Failed to read config: " ++ t)) rfl)
    c.warnings
  rw [warnOfConfig, exec_bind_ok hread, exec_get_bind, FileSystem.configWarnings]
  cases Options.given o.config with
  | none => simp
  | some path =>
    by_cases hpath : w.files.exists? path
    · simp [hpath, Option.filter]
    · simp only [tell_files, hpath, Option.filter, Bool.not_false, if_true, Bool.false_eq_true,
        if_false]
      rw [exec_say d _ (e := .warning ("Config file not found: " ++ path)) rfl, tell_tell]

def finish (d : Display) : Option (List Compilation × Nat) → Action Verdict
  | none => return .failure
  | some (units, unreadable) => summarize d units unreadable

def ComesTo (d : Display) (w : World) (a : Action Verdict) (r : Run) : Prop :=
  exec a w = (r.outcome.mapError .breakdown, (w.tell d r.events).changed r.files r.order)

variable {d} {a : Action (Option (List Compilation × Nat))}

theorem comesTo_stopped {config : Config} {message : Text} {order : Option Order}
    {files : FileSystem}
    (h : exec a w = (.ok none, (w.tell d [.error message]).changed files order)) :
    ComesTo d w (a >>= finish d) { Run.stopped config message files with order := order } :=
  exec_bind_ok h

theorem comesTo_concluded {config : Config} {events : List Event} {units : List Compilation}
    {n : Nat} {order : Option Order} {files : FileSystem}
    (h : exec a w = (.ok (some (units, n)), (w.tell d events).changed files order)) :
    ComesTo d w (a >>= finish d) (.concluded config events units n order files) := by
  unfold ComesTo
  rw [exec_bind_ok h, finish, exec_summarize, changed_tell, tell_tell]
  rfl

theorem comesTo_get {f : World → Action (Option (List Compilation × Nat))} {r : Run}
    (h : ComesTo d w (f w >>= finish d) r) : ComesTo d w ((get >>= f) >>= finish d) r := h

theorem comesTo_refused (d : Display) {config : Config} (message : Text) :
    ComesTo d w ((do say d (.error message); return none) >>= finish d)
      (.stopped config message w.files) := by
  apply comesTo_stopped
  rw [exec_say_bind d w (e := .error message) rfl]
  exact congrArg _ (changed_none _).symm

theorem after_concluded (config : Config) (before events : List Event) (units : List Compilation)
    (n : Nat) (order : Option Order) (files : FileSystem) :
    (Run.concluded config events units n order files).after before =
      .concluded config (before ++ events) units n order files := by
  simp [Run.concluded, Run.after]

theorem ComesTo.after {a : Action Unit} {b : Action Verdict} {r : Run} {events : List Event}
    (ha : exec a w = (.ok (), w.tell d events)) (hb : ComesTo d (w.tell d events) b r) :
    ComesTo d w (a >>= fun _ => b) (r.after events) := by
  unfold ComesTo at hb ⊢
  rw [exec_bind_ok ha, hb, tell_tell]
  rfl

variable (d)

theorem check_comesTo (finder : Glob.Finder) (config : Config) (root : Text) :
    ComesTo d w (checkWorkspace d g finder config root >>= finish d)
      (w.files.check config root finder) := by
  unfold FileSystem.check
  by_cases hroot : w.files.isDirectory root
  · rw [if_pos hroot]
    let scanning := Event.info ("Scanning workspace for sources: " ++ root)
    cases hfound : finder w.files (Path.resolve w.files.home root) config.included
        config.ignored with
    | error e =>
      have hthrown : exec (checkWorkspace d g finder config root) w =
          (.error (.breakdown (.pattern e)), w.tell d [scanning]) := by
        rw [checkWorkspace, exec_get_bind, if_pos hroot, exec_say_bind d w (e := scanning) rfl]
        simp only [hfound, exec_throw]
      unfold ComesTo
      rw [exec_bind, hthrown]
      exact congrArg _ (changed_none _).symm
    | ok paths =>
      have hfiles := exec_compileEach d (g := g)
        (w := w.tell d [scanning, .info ("Found " ++ Text.ofNat paths.length ++ " source files.")])
        (paths.mergeSort Text.le) [] 0
      simp only [checkFiles_eq, after_concluded]
      apply comesTo_concluded
      rw [checkWorkspace, exec_get_bind, if_pos hroot, exec_say_bind d w (e := scanning) rfl]
      simp only [hfound, List.length_mergeSort]
      rw [exec_say_bind d _ (e := .info _) rfl, tell_tell]
      simp only [List.cons_append, List.nil_append]
      rw [exec_map_ok some hfiles, tell_files, tell_tell, Nat.zero_add]
      exact congrArg _ (changed_none _).symm
  · rw [if_neg hroot]
    unfold checkWorkspace
    apply comesTo_get
    rw [if_neg hroot]
    exact comesTo_refused d _

theorem list_comesTo (config : Config) (input what : Text) :
    ComesTo d w (listFile d g input what >>= finish d)
      (w.files.list config input (.ofName what)) := by
  have hfile := exec_compileOrReport d (g := g) (w := w) input
  unfold FileSystem.list
  cases hs : w.files.source input with
  | error fault =>
    rw [hs] at hfile
    apply comesTo_stopped
    rw [listFile, exec_bind_ok hfile]
    exact congrArg _ (changed_none _).symm
  | ok source =>
    rw [hs] at hfile
    apply comesTo_concluded
    have hprint := exec_forM d w (fun t w => exec_print d w t)
      (source.compile.listing (.ofName what))
    rw [listFile, exec_bind_ok hfile]
    change exec (_ >>= fun _ => pure (some ([source.compile], 0))) w = _
    rw [exec_bind_ok hprint, exec_pure]
    exact congrArg _ (changed_none _).symm

theorem build_comesTo (config : Config) (input output : Text) (kind : OutputKind) :
    ComesTo d w (buildFile d g input (some output) kind >>= finish d)
      (w.files.buildFile config input output kind g) := by
  unfold FileSystem.buildFile
  rcases hb : w.files.build input (some output) kind g with ⟨fault | ⟨unit, path⟩, order, files⟩
  · apply comesTo_stopped
    rw [buildFile]
    exact exec_bind_ok (exec_compileOrReport_error d hb)
  · apply comesTo_concluded
    rw [buildFile, tell_nil]
    exact exec_bind_ok (exec_compileOrReport_ok d hb)

theorem perform_comesTo (finder : Glob.Finder) (o : Options) (config : Config) :
    ComesTo d w (compileInput d g finder o config >>= finish d)
      (w.files.perform o config g finder) := by
  unfold compileInput FileSystem.perform Options.task
  apply comesTo_get
  by_cases hinput : w.files.exists? o.input
  · rw [if_pos hinput, if_pos hinput]
    by_cases hworkspace : o.workspace
    · rw [if_pos hworkspace, if_pos hworkspace]
      exact check_comesTo d finder config o.input
    · rw [if_neg hworkspace, if_neg hworkspace]
      cases Options.given o.emit with
      | some what => exact list_comesTo d config o.input what
      | none =>
        cases Options.given o.output with
        | some output => exact build_comesTo d config o.input output (o.kind config)
        | none => exact comesTo_refused d _
  · rw [if_neg hinput, if_neg hinput]
    exact comesTo_refused d _

theorem runCompiler_comesTo (e : Environment) (reader : Config.Reader) (finder : Glob.Finder)
    (o : Options) {c : Configured}
    (hc : w.files.configWith reader (o.configPath w.files.home) = .ok c) :
    ComesTo (e.display o c.config) w (runCompiler e g reader finder o)
      (w.files.runWith o g reader finder) := by
  let d := e.display o c.config
  have hrun := ComesTo.after (exec_warnOfConfig d o c)
    (perform_comesTo d (g := g) (w := w.tell d (w.files.configWarnings o c)) finder o c.config)
  have hstart : exec (runCompiler e g reader finder o) w =
      exec (warnOfConfig d o c >>= fun _ =>
        compileInput d g finder o c.config >>= finish d) w := by
    rw [runCompiler, exec_get_bind, hc]
    rfl
  rw [FileSystem.runWith, hc]
  exact hstart.trans hrun

end

theorem perform_config (fs : FileSystem) (o : Options) (config : Config) (g : Generator)
    (finder : Glob.Finder) : (fs.perform o config g finder).config = config := by
  unfold FileSystem.perform
  split
  · cases o.task with
    | check =>
      simp only [FileSystem.check]
      split
      · split <;> rfl
      · rfl
    | list listing =>
      simp only [FileSystem.list]
      split <;> rfl
    | build output =>
      simp only [FileSystem.buildFile]
      split <;> rfl
    | incomplete => rfl
  · rfl

/-- An invocation gives what the run gives, and has printed and called for what the run tells. -/
theorem invoke_eq (e : Environment) (g : Generator) (reader : Config.Reader)
    (finder : Glob.Finder) (o : Options) (fs : FileSystem) :
    let r := fs.runWith o g reader finder
    invoke e g reader finder o fs =
      (r.outcome.mapError .breakdown,
        ⟨r.files, r.events.flatMap (e.display o r.config).shown,
          r.events.flatMap (callsOf e.version), r.order.toList⟩) := by
  cases hc : fs.configWith reader (o.configPath fs.home) with
  | error fault =>
    simp only [FileSystem.runWith, hc]
    rw [invoke, runCompiler, exec_get_bind]
    simp only [hc]
    rfl
  | ok c =>
    have hconfig : (fs.runWith o g reader finder).config = c.config := by
      rw [FileSystem.runWith, hc]
      exact perform_config fs o c.config g finder
    have hrun := runCompiler_comesTo (g := g) (w := ⟨fs, [], [], []⟩) e reader finder o hc
    simp only [hconfig]
    exact hrun

theorem invoke_console {e : Environment} {now : Int} (hm : e.made = now) (ho : e.opened = now)
    (hs : e.summed = now) (g : Generator) (reader : Config.Reader) (finder : Glob.Finder)
    (o : Options) (fs : FileSystem) :
    let r := fs.runWith o g reader finder
    (invoke e g reader finder o fs).2.console =
      r.lines (o.reporter r.config e.terminal now) now e.version := by
  rw [invoke_eq]
  refine congrArg (List.flatMap · _) (funext fun event => ?_)
  rw [Display.shown_eq _ now ho hs]
  simp only [Environment.display, hm]

namespace World

variable (w : World)

def diagnosed : List Diagnostic :=
  w.calls.flatMap fun
    | .diagnostics report => report.diagnostics
    | _ => []

def errors : List Text :=
  w.calls.flatMap fun
    | .error message => [message]
    | _ => []

def warnings : List Text :=
  w.calls.flatMap fun
    | .warning message => [message]
    | _ => []

end World

def diagnosedIn : Event → List Diagnostic
  | .compiled report => report.diagnostics
  | _ => []

def errorsIn : Event → List Text
  | .error message => [message]
  | _ => []

def warningsIn : Event → List Text
  | .warning message => [message]
  | _ => []

section

variable (e : Environment) (g : Generator) (reader : Config.Reader) (finder : Glob.Finder)
  (o : Options) (fs : FileSystem)

/-- What is gathered from the calls of the reporter can be gathered from the events. -/
theorem invoke_gathered {α : Type} {ofCall : Call → List α} {ofEvent : Event → List α}
    (h : ∀ event, (callsOf e.version event).flatMap ofCall = ofEvent event) :
    (invoke e g reader finder o fs).2.calls.flatMap ofCall =
      (fs.runWith o g reader finder).events.flatMap ofEvent := by
  rw [invoke_eq, List.flatMap_assoc]
  exact congrArg (List.flatMap · _) (funext h)

theorem invoke_diagnosed :
    (invoke e g reader finder o fs).2.diagnosed =
      (fs.runWith o g reader finder).events.flatMap diagnosedIn := by
  apply invoke_gathered
  intro event
  cases event <;> simp [callsOf, diagnosedIn]

theorem invoke_errors :
    (invoke e g reader finder o fs).2.errors =
      (fs.runWith o g reader finder).events.flatMap errorsIn := by
  apply invoke_gathered
  intro event
  cases event <;> rfl

theorem invoke_warnings :
    (invoke e g reader finder o fs).2.warnings =
      (fs.runWith o g reader finder).events.flatMap warningsIn := by
  apply invoke_gathered
  intro event
  cases event <;> rfl

end

theorem runWith_presentation (fs : FileSystem) (o : Options) (format color : Option Text)
    (g : Generator) (reader : Config.Reader) (finder : Glob.Finder) :
    fs.runWith { o with format, color } g reader finder = fs.runWith o g reader finder := rfl

/-- Invocations that differ in format, colour, terminal, clock and version end alike, do the same to
the files and tell their reporters the same. Each prints its own view of the same events. -/
theorem presentation_irrelevant (e e' : Environment) (g : Generator) (reader : Config.Reader)
    (finder : Glob.Finder) (o : Options) (format color : Option Text) (fs : FileSystem) :
    let one := invoke e g reader finder o fs
    let other := invoke e' g reader finder { o with format, color } fs
    one.1 = other.1 ∧ one.2.files = other.2.files ∧ one.2.orders = other.2.orders ∧
    one.2.diagnosed = other.2.diagnosed ∧ one.2.errors = other.2.errors ∧
    one.2.warnings = other.2.warnings ∧
    ∃ (events : List Event) (config : Config),
      one.2.calls = events.flatMap (callsOf e.version) ∧
      other.2.calls = events.flatMap (callsOf e'.version) ∧
      one.2.console = events.flatMap (e.display o config).shown ∧
      other.2.console = events.flatMap (e'.display { o with format, color } config).shown := by
  intro one other
  -- One run lies behind both, so whatever is drawn from it agrees.
  have hrun := runWith_presentation fs o format color g reader finder
  have hone := invoke_eq e g reader finder o fs
  have hother := invoke_eq e' g reader finder { o with format, color } fs
  rw [hrun] at hother
  refine ⟨?_, ?_, ?_, ?_, ?_, ?_, (fs.runWith o g reader finder).events,
    (fs.runWith o g reader finder).config, ?_, ?_, ?_, ?_⟩
  · exact (congrArg Prod.fst hone).trans (congrArg Prod.fst hother).symm
  · exact (congrArg (·.2.files) hone).trans (congrArg (·.2.files) hother).symm
  · exact (congrArg (·.2.orders) hone).trans (congrArg (·.2.orders) hother).symm
  · rw [invoke_diagnosed, invoke_diagnosed e', hrun]
  · rw [invoke_errors, invoke_errors e', hrun]
  · rw [invoke_warnings, invoke_warnings e', hrun]
  · exact congrArg (·.2.calls) hone
  · exact congrArg (·.2.calls) hother
  · exact congrArg (·.2.console) hone
  · exact congrArg (·.2.console) hother

end Driver

end Seanet
