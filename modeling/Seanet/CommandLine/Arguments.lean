import Seanet.CommandLine.Help
import Seanet.CommandLine.Suggestion
import Seanet.Run

set_option autoImplicit false

namespace Seanet

inductive Stop where
  | version | help
  | missingValue (flag : Flag)
  | badChoice (flag : Flag) (value : Text)
  | missingInput
  | unknownFlag (arg : Text)
  deriving DecidableEq, Repr

namespace Stop

def versionText : Text := "0.1.0"

def verdict : Stop → Verdict
  | version | help => .success
  | _ => .failure

def complaint : Stop → Text
  | version | help => []
  | missingValue f => "option '" ++ f.usage ++ "' argument missing"
  | badChoice f value =>
    "option '" ++ f.usage ++ "' argument '" ++ value ++ "' is invalid. Allowed choices are " ++
      Text.join ", " ((f.choices?.getD []).map Text.ofString) ++ "."
  | missingInput => "required option '" ++ Flag.input.usage ++ "' not specified"
  | unknownFlag arg => "unknown option '" ++ arg ++ "'" ++ Suggestion.text arg

def text (s : Stop) : Text :=
  match s with
  | version => versionText ++ [Text.lineFeed]
  | help => Help.page
  | _ => "error: " ++ s.complaint ++ [Text.lineFeed]

end Stop

inductive Argument (arg : Text) where
  | marker
  | flag (flag : Flag)
  | joined (flag : Flag) (value : Text)
  /-- A flag that shares its dash with others, which are left to read. -/
  | cluster (flag : Flag) (rest : { t : Text // t.length < arg.length })
  | unknown
  | operand

namespace Argument

def ofAssignment? (arg : Text) : Option (Flag × Text) :=
  let name := arg.takeWhile (· != Text.unit '=')
  match Flag.ofLong? name with
  | some f => if f.takesValue && name.length < arg.length then
      some (f, arg.drop (name.length + 1)) else none
  | none => none

def ofOther (arg : Text) : Argument arg :=
  match ofAssignment? arg with
  | some (f, value) => .joined f value
  | none => .unknown

def of (arg : Text) : Argument arg :=
  if arg = [Flag.dash, Flag.dash] then .marker
  else
    match Flag.ofArgument? arg with
    | some f => .flag f
    | none =>
      match arg with
      | d :: letter :: rest =>
        if d ≠ Flag.dash then .operand
        else
          match if rest.isEmpty then none else Flag.ofShort? letter with
          | some f => if f.takesValue then .joined f rest else .cluster f ⟨d :: rest, by simp⟩
          | none => ofOther (d :: letter :: rest)
      | _ => .operand

end Argument

structure Draft where
  input : Option Text
  output : Option Text
  library : Option Bool
  format : Option Text
  color : Option Text
  config : Option Text
  emit : Option Text
  workspace : Bool
  /-- The first argument that is not known, and all after it that are no known flags. -/
  unknown : List Text
  deriving DecidableEq, Repr

namespace Draft

def empty : Draft := ⟨none, none, none, none, none, none, none, false, []⟩

def turnOn (d : Draft) : Flag → Except Stop Draft
  | .version => .error .version
  | .library => .ok { d with library := some true }
  | .workspace => .ok { d with workspace := true }
  | _ => .ok d

/-- Sets a flag to a value; a later value takes the place of an earlier one. -/
def set (d : Draft) (f : Flag) (value : Text) : Except Stop Draft :=
  if f.allows value then
    .ok <| match f with
      | .input => { d with input := some value }
      | .output => { d with output := some value }
      | .format => { d with format := some value }
      | .color => { d with color := some value }
      | .config => { d with config := some value }
      | .emit => { d with emit := some value }
      | _ => d
  else .error (.badChoice f value)

/-- Arguments that are no flags: of interest only after one that is not known. -/
def addOperands (d : Draft) (args : List Text) : Draft :=
  if d.unknown.isEmpty then d else { d with unknown := d.unknown ++ args }

def read (d : Draft) (args : List Text) : Except Stop Draft :=
  match args with
  | [] => .ok d
  | arg :: rest =>
    match Argument.of arg with
    | .marker => .ok (d.addOperands (arg :: rest))
    | .flag f =>
      if f.takesValue then
        match rest with
        | [] => .error (.missingValue f)
        | value :: rest => do read (← d.set f value) rest
      else do read (← d.turnOn f) rest
    | .joined f value => do read (← d.set f value) rest
    | .cluster f more => do read (← d.turnOn f) (more.val :: rest)
    | .unknown => read { d with unknown := d.unknown ++ [arg] } rest
    | .operand => read (d.addOperands [arg]) rest
termination_by args.flatten.length + args.length
decreasing_by all_goals (simp +arith; try omega)

def options (d : Draft) : Except Stop Options :=
  if d.unknown.any fun arg => arg == "-h" || arg == "--help" then .error .help
  else
    match d.input, d.unknown with
    | none, _ => .error .missingInput
    | some _, arg :: _ => .error (.unknownFlag arg)
    | some input, [] =>
      .ok ⟨input, d.output, d.library, d.format, d.color, d.config, d.emit, d.workspace⟩

end Draft

namespace Options

def ofArguments (args : List Text) : Except Stop Options := do
  (← Draft.empty.read args).options

end Options

end Seanet
