import Seanet.CommandLine.Arguments
import Std.Time.DateTime.Timestamp

set_option autoImplicit false

namespace Seanet

namespace Console

def nameOf (p : Path) : String := (Path.render p).toString

def entryAt (p : Path) : IO (Option (Path × Entry)) := do
  try
    let place ← IO.FS.realPath (nameOf p)
    if ← place.isDir then return some (p, .directory)
    else return some (p, .file (← IO.FS.readBinFile place).toList)
  catch _ => return none

/-- All entries below a directory. Directories that no search looks into are left out. -/
partial def entriesBelow (p : Path) : IO (List (Path × Entry)) := do
  let names ← try
    let place ← IO.FS.realPath (nameOf p)
    pure ((← place.readDir).toList.map (·.fileName))
  catch _ => pure []
  let inner ← (names.filter (· != "node_modules")).mapM fun (name : String) => do
    let q := p ++ [(name : Text)]
    match ← entryAt q with
    | some (_, .directory) => return (q, .directory) :: (← entriesBelow q)
    | found => return found.toList
  return inner.flatten

def passed (home : Path) (t : Text) : List Path :=
  let steps := Path.steps t
  let origin := if Path.isAbsolute t then [] else home
  (List.range (steps.length + 1)).map fun n => (steps.take n).foldl Path.go origin

/-- The files that a run with these options can look at. -/
def snapshot (home : Path) (o : Options) : IO FileSystem := do
  let written := [o.configPath home, o.input] ++ o.output.toList
  let fs : FileSystem :=
    ⟨home, ← (written.flatMap (passed home)).eraseDups.filterMapM entryAt⟩
  if o.workspace then
    let root := Path.resolve home o.input
    let patterns := match fs.config (o.configPath home) with
      | .ok c => c.config.included
      | .error _ => []
    let bases := patterns.map fun t => (Glob.baseOf t).foldl Path.go root
    let below ← (root :: bases).eraseDups.mapM entriesBelow
    return { fs with entries := fs.entries ++ below.flatten }
  else return fs

def write (before after : FileSystem) : IO Unit := do
  for (p, e) in after.entries do
    if before.entries.lookup p != some e then
      match e with
      | .directory => IO.FS.createDirAll (nameOf p)
      | .file content => IO.FS.writeBinFile (nameOf p) ⟨content.toArray⟩

def print (l : Line) : IO Unit :=
  match l.channel with
  | .log => IO.println l.text.toString
  | .error | .warn => IO.eprintln l.text.toString

def now : IO Int := do
  return (← Std.Time.Timestamp.now).toMillisecondsSinceUnixEpoch.val

def terminal : IO Terminal := do
  return {
    noColor := (← IO.getEnv "NO_COLOR").isSome
    forceColor := (← IO.getEnv "FORCE_COLOR").isSome
    isTty := ← (← IO.getStdout).isTty }

def perform (o : Options) : IO Verdict := do
  let home := Path.resolve [] ((← IO.currentDir).toString : Text)
  let start ← now
  let before ← snapshot home o
  let run := before.run o .standIn
  let reporter := o.reporter run.config (← terminal) start
  write before run.files
  for line in run.lines reporter (← now) Stop.versionText do
    print line
  match run.outcome with
  | .ok verdict => return verdict
  | .error e =>
    IO.eprintln e.message.toString
    return .failure

end Console

end Seanet

open Seanet in
def main (args : List String) : IO UInt32 := do
  let verdict ← match Options.ofArguments (args.map Text.ofString) with
    | .ok o => Console.perform o
    | .error stop =>
      if stop.verdict = .success then IO.print stop.text.toString
      else IO.eprint stop.text.toString
      pure stop.verdict
  return verdict.exitCode.toUInt32
