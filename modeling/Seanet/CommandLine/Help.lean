import Seanet.CommandLine.Flag
import Seanet.Config

set_option autoImplicit false

namespace Seanet

namespace Help

def purpose : Flag → Text
  | .version => "output the version number"
  | .input => "The file to compile (a directory with --workspace)."
  | .output => "Path to the output file."
  | .library => "Compile as a library. By default, an executable is created."
  | .format => "Output format"
  | .color => "Color output"
  | .config =>
    "Path to a config file (defaults to " ++ Config.fileName ++ " in the working directory)"
  | .emit => "Print the tokens or the syntax tree instead of generating code"
  | .workspace => "Check every source file below the input directory without generating code"

def description (f : Flag) : Text :=
  purpose f ++
  match f.choices? with
  | some choices =>
    let quoted := choices.map fun c : String => ("\"" ++ c ++ "\"" : Text)
    " (choices: " ++ Text.join ", " quoted ++ ")"
  | none => if f = .workspace then " (default: false)" else []

/-- Adds a word to the last line if the line then has at most `width` units, or else begins a line.
The lines are in reverse order. -/
def addWord (width : Nat) (lines : List Text) (word : Text) : List Text :=
  match lines with
  | [] => [word]
  | line :: above =>
    if line.length + 1 + word.length ≤ width then (line ++ " " ++ word) :: above
    else word :: line :: above

def wrap (width : Nat) (t : Text) : List Text :=
  ((Text.splitOn (Text.unit ' ') t).foldl (addWord width) []).reverse

def blanks (n : Nat) : Text := List.replicate n (Text.unit ' ')

def flagWidth : Nat := 26

def descriptionWidth : Nat := 51

def entry (usage description : Text) : Text :=
  let first := "  " ++ usage ++ blanks (flagWidth - usage.length)
  first ++ Text.join ([Text.lineFeed] ++ blanks (flagWidth + 2)) (wrap descriptionWidth description)

def entries : List Text :=
  Flag.all.map (fun f => entry f.usage (description f)) ++
    [entry "-h, --help" "display help for command"]

def heading : List Text := ["Usage: snc [options]", "", "The Seanet compiler.", "", "Options:"]

def page : Text := (heading ++ entries).flatMap (· ++ [Text.lineFeed])

end Help

end Seanet
