import Seanet.Diagnostic
import Seanet.Json
import Seanet.Report.Clock
import Seanet.Report.Style

set_option autoImplicit false

namespace Seanet

inductive Format where
  | pretty | plain | json | compact
  deriving DecidableEq, Repr

namespace Format

def all : List Format := [pretty, plain, json, compact]

def name : Format → String
  | pretty => "pretty"
  | plain => "plain"
  | json => "json"
  | compact => "compact"

def ofName? (t : Text) : Option Format := all.find? fun f => (f.name : Text) == t

end Format

inductive ColorMode where
  | auto | always | never
  deriving DecidableEq, Repr

namespace ColorMode

def all : List ColorMode := [auto, always, never]

def name : ColorMode → String
  | auto => "auto"
  | always => "always"
  | never => "never"

def ofName? (t : Text) : Option ColorMode := all.find? fun c => (c.name : Text) == t

end ColorMode

structure Terminal where
  noColor : Bool
  forceColor : Bool
  isTty : Bool
  deriving DecidableEq, Repr

inductive Channel where
  | log | error | warn
  deriving DecidableEq, Repr

namespace Channel

def name : Channel → String
  | log => "log"
  | error => "error"
  | warn => "warn"

end Channel

structure Line where
  channel : Channel
  text : Text
  deriving DecidableEq, Repr

structure FileReport where
  path : Text
  diagnostics : List Diagnostic
  /-- The same errors as lines of text, for the plain format. -/
  messages : List Text

structure Totals where
  total : Int
  passed : Int
  failed : Int

structure Reporter where
  format : Format
  colored : Bool
  start : Int

namespace Reporter

/-- Colour when it is asked for. Left open, it depends on the terminal, and the plain format has
none. -/
def wantsColor (format : Format) (mode : ColorMode) (terminal : Terminal) : Bool :=
  match mode with
  | .never => false
  | .always => true
  | .auto =>
    format ≠ .plain && !terminal.noColor && (terminal.forceColor || terminal.isTty)

def make (format : Format) (mode : ColorMode) (terminal : Terminal) (now : Int) : Reporter :=
  ⟨format, wantsColor format mode terminal, now⟩

def log (t : Text) : Line := ⟨.log, t⟩

def paint (r : Reporter) (styles : List Style) (t : Text) : Text :=
  if r.colored then Style.paint styles t else t

def location (d : Diagnostic) : Text :=
  match d.span with
  | none => d.file
  | some s => d.file ++ ":" ++ Text.ofInt s.first.line ++ ":" ++ Text.ofInt s.first.column

def locationJson (l : Location) : Json :=
  .object [("line", .number l.line), ("col", .number l.column)]

def diagnosticJson (d : Diagnostic) : Json :=
  .object ([("code", .string d.code.name), ("message", .string d.message),
    ("severity", .string d.severity.name), ("file", .string d.file)] ++
    match d.span with
    | none => []
    | some s =>
      [("range", .object [("start", locationJson s.first), ("end", locationJson s.last)])])

def icon : Severity → Text
  | .error => "✖"
  | .warning => "⚠"

def label : Severity → Text
  | .error => "ERROR"
  | .warning => "WARNING"

def letter : Severity → Text
  | .error => "E"
  | .warning => "W"

def style : Severity → Style
  | .error => .red
  | .warning => .yellow

def formatDiagnostic (r : Reporter) (d : Diagnostic) : Text :=
  match r.format with
  | .json => (diagnosticJson d).compact
  | .compact =>
    location d ++ " [" ++ d.code.name ++ "] " ++ letter d.severity ++ ": " ++ d.message
  | _ =>
    "  " ++ r.paint [style d.severity] (icon d.severity) ++ " " ++
      r.paint [style d.severity] (label d.severity) ++ "  " ++
      r.paint [.cyan] ("[" ++ d.code.name ++ "]") ++ "  " ++
      r.paint [.bold] (location d) ++ "  " ++ d.message

def strokes (n : Nat) : Text := List.replicate n 0x2500

def banner (r : Reporter) (now : Int) (version : Text) (count : Int) : List Line :=
  match r.format with
  | .pretty =>
    let files : Text := if count = 1 then " file" else " files"
    [log (r.paint [.bold] ("┌ snc " ++ version ++ "  •  Compiling " ++ Text.ofInt count ++ files ++
        "  •  " ++ Clock.stamp now)),
      log (r.paint [.dim] ("└" ++ strokes 56)),
      log []]
  | _ => []

def header (r : Reporter) (f : FileReport) : List Line :=
  match r.format with
  | .pretty => [log (r.paint [.bold] ("File: " ++ f.path))]
  | _ => []

def diagnostics (r : Reporter) (f : FileReport) : List Line :=
  match r.format with
  | .plain => f.messages.map (⟨.error, ·⟩)
  | .pretty =>
    if f.diagnostics.isEmpty then
      [log ("  " ++ r.paint [.green] "✓" ++ " " ++ r.paint [.green] "No issues found")]
    else f.diagnostics.map fun d => log (r.formatDiagnostic d)
  | _ => f.diagnostics.map fun d => log (r.formatDiagnostic d)

def summaryJson (totals : Totals) (errors : Int) (elapsed : Text) : Json :=
  .object [
    ("summary", .object [("files", .object [("total", .number totals.total),
      ("passed", .number totals.passed), ("failed", .number totals.failed)])]),
    ("totals", .object [("errors", .number errors)]),
    ("timing", .object [("elapsedSeconds", .string elapsed)])]

def summary (r : Reporter) (now : Int) (totals : Totals) (errors : Int) : List Line :=
  let elapsed := Clock.seconds (now - r.start)
  match r.format with
  | .json => [log (summaryJson totals errors elapsed).pretty]
  | .plain => []
  | .compact => [log ("Summary: " ++ Text.ofInt errors ++ " errors (" ++ elapsed ++ "s)")]
  | .pretty =>
    let passed := r.paint [.green] ("Passed: " ++ Text.ofInt totals.passed)
    let failed := r.paint [if 0 < totals.failed then .red else .dim]
      ("Failed: " ++ Text.ofInt totals.failed)
    let exit : Text := if 0 < errors then "1" else "0"
    [log [],
      log (r.paint [.dim] (strokes 56)),
      log (r.paint [.bold] "Summary"),
      log [],
      log (r.paint [.cyan] "Files:" ++ " " ++ Text.ofInt totals.total),
      log ("  " ++ passed ++ "  " ++ failed),
      log [],
      log (r.paint [.dim]
        ("Checked " ++ Text.ofInt totals.total ++ " files in " ++ elapsed ++ "s")),
      log (r.paint [if 0 < errors then .red else .green] ("Exit code: " ++ exit))]

def success (r : Reporter) : List Line :=
  match r.format with
  | .pretty =>
    [log [],
      log (r.paint [.green] "✓" ++ " " ++ r.paint [.green, .bold] "All files compiled!")]
  | _ => []

def error (r : Reporter) (message : Text) : Line :=
  match r.format with
  | .json => ⟨.error, (Json.object [("error", .string message)]).compact⟩
  | _ => ⟨.error, r.paint [.red] ("Error: " ++ message)⟩

def warning (r : Reporter) (message : Text) : Line :=
  match r.format with
  | .json => ⟨.warn, (Json.object [("warning", .string message)]).compact⟩
  | _ => ⟨.warn, r.paint [.yellow] ("Warning: " ++ message)⟩

def info (r : Reporter) (message : Text) : List Line :=
  match r.format with
  | .json => []
  | _ => [log (r.paint [.dim] message)]

end Reporter

end Seanet
