import Seanet.Report.Reporter

/-!
# Configuration

A configuration file holds a mapping of options. What is wrong with it becomes warnings, and the
options concerned keep their defaults. How its text is read is not settled here: a reader gives the
faults in a text and the value that it stands for, and may throw instead of a value.
-/

set_option autoImplicit false

namespace Seanet

structure Config where
  format : Format
  color : ColorMode
  library : Bool
  included : List Text
  ignored : List Text
  deriving DecidableEq, Repr

structure Configured where
  config : Config
  warnings : List Text
  deriving DecidableEq, Repr

namespace Config

def default : Config := ⟨.pretty, .auto, false, ["**/*.sn"], []⟩

def fileName : String := "seanet.yml"

/-- A value in a configuration file, as far as options tell values apart. -/
inductive Value where
  | null
  | text (t : Text)
  | bool (b : Bool)
  | list (items : List Value)
  | record (members : List (Text × Value))
  | other

structure Fault where
  line : Nat
  column : Nat
  message : Text

/-- What a text is read as: the faults in it, and the value that it stands for or what is thrown in
place of one. -/
structure Reading (ε : Type) where
  faults : List Fault
  value : Except ε Value

abbrev Reader := Text → Reading Text

end Config

namespace Configured

def default : Configured := ⟨.default, []⟩

end Configured

namespace Config

def Value.text? : Value → Option Text
  | .text t => some t
  | _ => none

def Value.bool? : Value → Option Bool
  | .bool b => some b
  | _ => none

def Value.texts? : Value → Option (List Text)
  | .text t => some [t]
  | .list items => items.mapM Value.text?
  | _ => none

def Value.format? (v : Value) : Option Format := v.text?.bind Format.ofName?

def Value.color? (v : Value) : Option ColorMode := v.text?.bind ColorMode.ofName?

/-- The value of a key. Of several members with one key the last counts. -/
def member? (members : List (Text × Value)) (key : String) : Option Value :=
  members.reverse.lookup (Text.ofString key)

/-- Reads one option: a value that is understood changes the configuration, any other gives a
warning. -/
def option {α : Type} (key : String) (expected path : Text) (members : List (Text × Value))
    (read : Value → Option α) (set : α → Config → Config) (c : Configured) : Configured :=
  match member? members key with
  | none => c
  | some v =>
    match read v with
    | some a => { c with config := set a c.config }
    | none =>
      { c with warnings := c.warnings ++ [path ++ ": \"" ++ key ++ "\" must be " ++ expected] }

def names (all : List String) : Text := Text.join ", " (all.map Text.ofString)

def ofMembers (path : Text) (members : List (Text × Value)) : Configured :=
  let patterns : Text := "a string or a list of strings"
  Configured.default
    |> option "format" ("one of " ++ names (Format.all.map Format.name)) path members
        Value.format? (fun f c => { c with format := f })
    |> option "color" ("one of " ++ names (ColorMode.all.map ColorMode.name)) path members
        Value.color? (fun m c => { c with color := m })
    |> option "library" "true or false" path members Value.bool?
        (fun b c => { c with library := b })
    |> option "include" patterns path members Value.texts? (fun ts c => { c with included := ts })
    |> option "ignore" patterns path members Value.texts? (fun ts c => { c with ignored := ts })

def Fault.warning (path : Text) (f : Fault) : Text :=
  path ++ ":" ++ Text.ofNat f.line ++ ":" ++ Text.ofNat f.column ++ " " ++ f.message

def ofReading {ε : Type} (path : Text) (r : Reading ε) : Except ε Configured :=
  if !r.faults.isEmpty then .ok ⟨.default, r.faults.map (Fault.warning path)⟩
  else
    match r.value with
    | .error e => .error e
    | .ok .null => .ok .default
    | .ok (.record members) => .ok (ofMembers path members)
    | .ok _ => .ok ⟨.default, [path ++ ": expected a mapping of options at the top level"]⟩

end Config

end Seanet
