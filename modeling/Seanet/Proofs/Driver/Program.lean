import Seanet.Run

/-!
# The driver, step by step

One invocation of the compiler as it goes on in time. A reporter is made once and called again and
again; what it prints depends on its format and colour and on the clock. Files change where they are
written, faults are thrown and some of them caught, and counts grow along the way. The state is the
world that the invocation acts on, with a record of the calls of the reporter and of the code
generator. What it all amounts to is told by `FileSystem.runWith` (`Driver.Events`).
-/

set_option autoImplicit false

namespace Seanet

namespace Driver

/-- What an invocation finds besides files and options. The clock is read three times: when the
reporter is made, when a report begins and when it is summed up. -/
structure Environment where
  terminal : Terminal
  version : Text
  made : Int
  opened : Int
  summed : Int

/-- A call of the reporter. -/
inductive Call where
  | warning (message : Text)
  | error (message : Text)
  | info (message : Text)
  | banner (version : Text) (count : Nat)
  | header (report : FileReport)
  | diagnostics (report : FileReport)
  | summary (totals : Totals) (errors : Nat)
  | success

/-- A reporter and its surroundings. -/
structure Display where
  reporter : Reporter
  environment : Environment

def Display.lines (d : Display) : Call → List Line
  | .warning message => [d.reporter.warning message]
  | .error message => [d.reporter.error message]
  | .info message => d.reporter.info message
  | .banner version count => d.reporter.banner d.environment.opened version count
  | .header report => d.reporter.header report
  | .diagnostics report => d.reporter.diagnostics report
  | .summary totals errors => d.reporter.summary d.environment.summed totals errors
  | .success => d.reporter.success

structure World where
  files : FileSystem
  console : List Line
  calls : List Call
  orders : List Order

inductive Thrown where
  | access (fault : FileAccessError)
  | breakdown (b : Breakdown)

/-- A step that may throw; the world stays as it is then. -/
abbrev Action := ExceptT Thrown (StateM World)

def exec {α : Type} (a : Action α) (w : World) : Except Thrown α × World := a.run.run w

def say (d : Display) (c : Call) : Action Unit :=
  modify fun w => { w with console := w.console ++ d.lines c, calls := w.calls ++ [c] }

def print (t : Text) : Action Unit :=
  modify fun w => { w with console := w.console ++ [Reporter.log t] }

def readSource (path : Text) : Action Source := do
  let w ← get
  match w.files.source path with
  | .ok source => return source
  | .error fault => throw (.access fault)

/-- Calls the code generator. Whatever goes wrong there counts as a fault of writing. -/
def generate (generator : Generator) (order : Order) : Action Unit := do
  let w ← get
  let (files, failure) := generator order w.files
  set { w with files := files, orders := w.orders ++ [order] }
  match failure with
  | none => return ()
  | some cause => throw (.access ⟨.write, order.outputPath, cause⟩)

def compileFile (generator : Generator) (input : Text) (target : Option (Text × OutputKind)) :
    Action Compilation := do
  let source ← readSource input
  let unit := source.compile
  match target with
  | none => return unit
  | some (output, kind) =>
    if output.isEmpty || !unit.isClean then return unit
    else
      generate generator ⟨unit.program, output, kind, Path.stem (Path.baseName input)⟩
      return unit

def compileOrReport (d : Display) (generator : Generator) (input : Text)
    (target : Option (Text × OutputKind)) : Action (Option Compilation) :=
  tryCatch (some <$> compileFile generator input target) fun
    | .access fault => do
      say d (.error fault.message)
      return none
    | thrown => throw thrown

def compileEach (d : Display) (generator : Generator) :
    List Text → List Compilation → Nat → Action (List Compilation × Nat)
  | [], units, unreadable => return (units, unreadable)
  | file :: files, units, unreadable => do
    match ← compileOrReport d generator file none with
    | some unit => compileEach d generator files (units ++ [unit]) unreadable
    | none => compileEach d generator files units (unreadable + 1)

-- Each mode gives what the report is about, and how many files have no compilation. It gives none
-- if the invocation ends there.

def checkWorkspace (d : Display) (generator : Generator) (finder : Glob.Finder) (config : Config)
    (root : Text) : Action (Option (List Compilation × Nat)) := do
  let w ← get
  if w.files.isDirectory root then
    say d (.info ("Scanning workspace for sources: " ++ root))
    match finder w.files (Path.resolve w.files.home root) config.included config.ignored with
    | .error e => throw (.breakdown (.pattern e))
    | .ok found =>
      let files := found.mergeSort Text.le
      say d (.info ("Found " ++ Text.ofNat files.length ++ " source files."))
      some <$> compileEach d generator files [] 0
  else
    say d (.error ("--workspace expects a directory, got " ++ root))
    return none

def listFile (d : Display) (generator : Generator) (input what : Text) :
    Action (Option (List Compilation × Nat)) := do
  match ← compileOrReport d generator input none with
  | none => return none
  | some unit =>
    (unit.listing (.ofName what)).forM print
    return some ([unit], 0)

def buildFile (d : Display) (generator : Generator) (input : Text) (output : Option Text)
    (kind : OutputKind) : Action (Option (List Compilation × Nat)) := do
  match output with
  | none =>
    say d (.error "An output file is required (-o, --output-file).")
    return none
  | some path =>
    match ← compileOrReport d generator input (some (path, kind)) with
    | none => return none
    | some unit => return some ([unit], 0)

def reportEach (d : Display) : List Compilation → Nat → Nat → Action (Nat × Nat)
  | [], errors, failed => return (errors, failed)
  | unit :: units, errors, failed => do
    let report := unit.report
    say d (.header report)
    say d (.diagnostics report)
    reportEach d units (errors + report.diagnostics.length)
      (if 0 < report.diagnostics.length then failed + 1 else failed)

def summarize (d : Display) (units : List Compilation) (unreadable : Nat) : Action Verdict := do
  say d (.banner d.environment.version (units.length + unreadable))
  let (errors, failed) ← reportEach d units 0 0
  let failed := failed + unreadable
  let total := units.length + unreadable
  say d (.summary ⟨total, total - failed, failed⟩ errors)
  if 0 < errors ∨ 0 < unreadable then return .failure
  else
    say d .success
    return .success

def warnOfConfig (d : Display) (o : Options) (c : Configured) : Action Unit := do
  c.warnings.forM fun w => say d (.warning ("Failed to read config: " ++ w))
  let w ← get
  match Options.given o.config with
  | none => return ()
  | some path =>
    if w.files.exists? path then return ()
    else say d (.warning ("Config file not found: " ++ path))

def compileInput (d : Display) (generator : Generator) (finder : Glob.Finder) (o : Options)
    (config : Config) : Action (Option (List Compilation × Nat)) := do
  let w ← get
  if w.files.exists? o.input then
    if o.workspace then checkWorkspace d generator finder config o.input
    else
      match Options.given o.emit with
      | some what => listFile d generator o.input what
      | none => buildFile d generator o.input (Options.given o.output) (o.kind config)
  else
    say d (.error ("Input not found: " ++ o.input))
    return none

def Environment.display (e : Environment) (o : Options) (config : Config) : Display :=
  ⟨o.reporter config e.terminal e.made, e⟩

def runCompiler (e : Environment) (generator : Generator) (reader : Config.Reader)
    (finder : Glob.Finder) (o : Options) : Action Verdict := do
  let w ← get
  match w.files.configWith reader (o.configPath w.files.home) with
  | .error fault => throw (.breakdown (.config fault))
  | .ok c =>
    let d := e.display o c.config
    warnOfConfig d o c
    match ← compileInput d generator finder o c.config with
    | none => return .failure
    | some (units, unreadable) => summarize d units unreadable

/-- An invocation on a file system, before which nothing was printed. -/
def invoke (e : Environment) (generator : Generator) (reader : Config.Reader)
    (finder : Glob.Finder) (o : Options) (fs : FileSystem) : Except Thrown Verdict × World :=
  exec (runCompiler e generator reader finder o) ⟨fs, [], [], []⟩

end Driver

end Seanet
