import Seanet.Build
import Seanet.Config.Load
import Seanet.Glob.Search

/-!
# Runs

One run of the compiler: check a workspace, list what one file holds, or build it. A run is told as
events, which say what happened and not how it looks; a reporter turns them into lines afterwards.
So what a run does cannot depend on how it is shown.
-/

set_option autoImplicit false

namespace Seanet

/-- What a run is asked for. An option that is not given is left to the configuration. -/
structure Options where
  input : Text
  output : Option Text
  library : Option Bool
  format : Option Text
  color : Option Text
  config : Option Text
  emit : Option Text
  workspace : Bool
  deriving DecidableEq, Repr

inductive Listing where
  | tokens | trees
  deriving DecidableEq, Repr

inductive Task where
  | check
  | list (listing : Listing)
  | build (output : Text)
  | incomplete
  deriving DecidableEq, Repr

namespace Listing

def ofName (t : Text) : Listing := if t = "tokens" then tokens else trees

end Listing

namespace Options

/-- An option that is given as the empty text counts as not given. -/
def given (t : Option Text) : Option Text := t.filter (!·.isEmpty)

def task (o : Options) : Task :=
  if o.workspace then .check
  else
    match given o.emit with
    | some what => .list (.ofName what)
    | none =>
      match given o.output with
      | some path => .build path
      | none => .incomplete

/-- The kind of artifact: what the options say, or else the configuration. -/
def kind (o : Options) (c : Config) : OutputKind :=
  if o.library.getD c.library then .library else .executable

def configPath (o : Options) (home : Path) : Text :=
  o.config.getD (Path.render (home ++ [(Config.fileName : Text)]))

end Options

inductive Event where
  | warning (message : Text)
  | error (message : Text)
  | info (message : Text)
  | listed (line : Text)
  | opened (count : Nat)
  | compiled (report : FileReport)
  | summarized (totals : Totals) (errors : Nat)
  | succeeded

inductive Verdict where
  | success | failure
  deriving DecidableEq, Repr

namespace Verdict

def exitCode : Verdict → Nat
  | success => 0
  | failure => 1

end Verdict

inductive Breakdown where
  | config (fault : ConfigFault)
  | pattern (fault : Glob.Failure)

namespace Breakdown

def message : Breakdown → Text
  | config fault => fault.message
  | pattern fault => fault.message

end Breakdown

structure Run where
  config : Config
  events : List Event
  outcome : Except Breakdown Verdict
  order : Option Order
  files : FileSystem

namespace Compilation

def report (c : Compilation) : FileReport :=
  ⟨c.source.name, c.log.map (·.diagnostic), c.log.map (·.formatted)⟩

def listing (c : Compilation) : Listing → List Text
  | .tokens => c.tokens.map fun t =>
    Text.ofNat t.line ++ ":" ++ Text.ofNat t.column ++ " " ++ t.kind.name ++ " " ++
      (Json.string t.lexeme).compact
  | .trees => c.program.declarations.map Declaration.print

end Compilation

namespace Run

/-- The report on compiled files, next to some that could not be read. -/
def conclusion (units : List Compilation) (unreadable : Nat) : List Event × Verdict :=
  let reports := units.map Compilation.report
  let errors := (reports.flatMap (·.diagnostics)).length
  let total := units.length + unreadable
  let failed := reports.countP (!·.diagnostics.isEmpty) + unreadable
  let told := .opened total :: reports.map .compiled ++
    [.summarized ⟨total, total - failed, failed⟩ errors]
  if errors = 0 ∧ unreadable = 0 then (told ++ [.succeeded], .success) else (told, .failure)

def stopped (config : Config) (message : Text) (files : FileSystem) : Run :=
  ⟨config, [.error message], .ok .failure, none, files⟩

def concluded (config : Config) (events : List Event) (units : List Compilation)
    (unreadable : Nat) (order : Option Order) (files : FileSystem) : Run :=
  let (told, verdict) := conclusion units unreadable
  ⟨config, events ++ told, .ok verdict, order, files⟩

def after (r : Run) (events : List Event) : Run := { r with events := events ++ r.events }

end Run

namespace FileSystem

/-- Compiles files one by one, in the order of their paths. Errors are those of the files that
cannot be read. -/
def compileAll (fs : FileSystem) (paths : List Text) :
    List (Except FileAccessError Compilation) :=
  (paths.mergeSort Text.le).map fun path => (fs.source path).map Source.compile

def checkFiles (fs : FileSystem) (config : Config) (paths : List Text) : Run :=
  let results := fs.compileAll paths
  let faults := results.filterMap fun
    | .error e => some e
    | .ok _ => none
  let units := results.filterMap Except.toOption
  .concluded config (faults.map (.error ·.message)) units faults.length none fs

def check (fs : FileSystem) (config : Config) (root : Text) (finder : Glob.Finder) : Run :=
  if fs.isDirectory root then
    let scanning := Event.info ("Scanning workspace for sources: " ++ root)
    match finder fs (Path.resolve fs.home root) config.included config.ignored with
    | .error e => ⟨config, [scanning], .error (.pattern e), none, fs⟩
    | .ok paths =>
      (fs.checkFiles config paths).after
        [scanning, .info ("Found " ++ Text.ofNat paths.length ++ " source files.")]
  else .stopped config ("--workspace expects a directory, got " ++ root) fs

def list (fs : FileSystem) (config : Config) (input : Text) (listing : Listing) : Run :=
  match fs.source input with
  | .error e => .stopped config e.message fs
  | .ok source =>
    let unit := source.compile
    .concluded config ((unit.listing listing).map .listed) [unit] 0 none fs

def buildFile (fs : FileSystem) (config : Config) (input output : Text) (kind : OutputKind)
    (generator : Generator) : Run :=
  let build := fs.build input (some output) kind generator
  match build.result with
  | .error e => { Run.stopped config e.message build.files with order := build.order }
  | .ok (unit, _) => .concluded config [] [unit] 0 build.order build.files

def perform (fs : FileSystem) (o : Options) (config : Config) (generator : Generator)
    (finder : Glob.Finder) : Run :=
  if fs.exists? o.input then
    match o.task with
    | .check => fs.check config o.input finder
    | .list listing => fs.list config o.input listing
    | .build output => fs.buildFile config o.input output (o.kind config) generator
    | .incomplete => .stopped config "An output file is required (-o, --output-file)." fs
  else .stopped config ("Input not found: " ++ o.input) fs

def configWarnings (fs : FileSystem) (o : Options) (c : Configured) : List Event :=
  c.warnings.map (fun w => .warning ("Failed to read config: " ++ w)) ++
    match (Options.given o.config).filter (!fs.exists? ·) with
    | some path => [.warning ("Config file not found: " ++ path)]
    | none => []

/-- Runs the compiler with a code generator, a reader of configuration files and a way to find the
files of a workspace. -/
def runWith (fs : FileSystem) (o : Options) (generator : Generator) (reader : Config.Reader)
    (finder : Glob.Finder) : Run :=
  match fs.configWith reader (o.configPath fs.home) with
  | .error e => ⟨.default, [], .error (.config e), none, fs⟩
  | .ok c => (fs.perform o c.config generator finder).after (fs.configWarnings o c)

def run (fs : FileSystem) (o : Options) (generator : Generator) : Run :=
  fs.runWith o generator Yaml.reader Glob.find

end FileSystem

namespace Reporter

def lines (r : Reporter) (now : Int) (version : Text) : Event → List Line
  | .warning message => [r.warning message]
  | .error message => [r.error message]
  | .info message => r.info message
  | .listed line => [log line]
  | .opened count => r.banner now version count
  | .compiled report => r.header report ++ r.diagnostics report
  | .summarized totals errors => r.summary now totals errors
  | .succeeded => r.success

end Reporter

namespace Options

/-- The reporter that the options ask for, or else the configuration. A name that means nothing
gives the usual format or mode. -/
def reporter (o : Options) (c : Config) (terminal : Terminal) (now : Int) : Reporter :=
  let format := match o.format with
    | none => c.format
    | some name => (Format.ofName? name).getD .pretty
  let color := match o.color with
    | none => c.color
    | some name => (ColorMode.ofName? name).getD .auto
  .make format color terminal now

end Options

namespace Run

def lines (r : Run) (reporter : Reporter) (now : Int) (version : Text) : List Line :=
  r.events.flatMap (reporter.lines now version)

end Run

end Seanet
