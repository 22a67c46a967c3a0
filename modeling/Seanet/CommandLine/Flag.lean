import Seanet.Report.Reporter

set_option autoImplicit false

namespace Seanet

inductive Flag where
  | version | input | output | library | format | color | config | emit | workspace
  deriving DecidableEq, Repr

namespace Flag

def all : List Flag :=
  [version, input, output, library, format, color, config, emit, workspace]

def long : Flag → String
  | version => "version"
  | input => "input-file"
  | output => "output-file"
  | library => "library"
  | format => "format"
  | color => "color"
  | config => "config"
  | emit => "emit"
  | workspace => "workspace"

def short? : Flag → Option Char
  | version => some 'v'
  | input => some 'i'
  | output => some 'o'
  | library => some 'l'
  | _ => none

def parameter? : Flag → Option String
  | input | output | config => some "path"
  | format => some "format"
  | color => some "mode"
  | emit => some "what"
  | version | library | workspace => none

def takesValue (f : Flag) : Bool := f.parameter?.isSome

def choices? : Flag → Option (List String)
  | format => some (Format.all.map Format.name)
  | color => some (ColorMode.all.map ColorMode.name)
  | emit => some ["tokens", "ast"]
  | _ => none

def allows (f : Flag) (value : Text) : Bool :=
  match f.choices? with
  | none => true
  | some choices => choices.any fun c => (c : Text) == value

def usage (f : Flag) : Text :=
  (match f.short? with
    | some c => [Text.unit '-', Text.unit c] ++ ", "
    | none => []) ++
  "--" ++ f.long ++
  match f.parameter? with
  | some p => " <" ++ p ++ ">"
  | none => []

def dash : UInt16 := Text.unit '-'

def ofLong? (arg : Text) : Option Flag := all.find? fun f => [dash, dash] ++ f.long == arg

def ofShort? (letter : UInt16) : Option Flag :=
  all.find? fun f => f.short?.map Text.unit == some letter

def ofArgument? (arg : Text) : Option Flag :=
  match arg with
  | [d, letter] => if d = dash then ofShort? letter else none
  | _ => ofLong? arg

end Flag

end Seanet
