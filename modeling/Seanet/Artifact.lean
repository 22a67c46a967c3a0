import Seanet.Json

set_option autoImplicit false

namespace Seanet

inductive OutputKind where
  | executable | library
  /-- A kind that only has a name; it is treated like a library. -/
  | other (name : Text)
  deriving DecidableEq, Repr

namespace OutputKind

def name : OutputKind → Text
  | executable => "executable"
  | library => "library"
  | other name => name

def ofName (t : Text) : OutputKind :=
  if t = executable.name then executable else if t = library.name then library else other t

end OutputKind

structure Method where
  name : String
  returns : String
  parameters : List String
  instructions : List String
  deriving DecidableEq, Repr

structure Artifact where
  name : Text
  kind : OutputKind
  deriving DecidableEq, Repr

namespace Artifact

def mainMethod : Method := ⟨"Main", "int", [], ["ldc.i4.0", "ret"]⟩

def addMethod : Method := ⟨"Add", "int", ["int", "int"], ["ldarg.0", "ldarg.1", "add", "ret"]⟩

def method (a : Artifact) : Method :=
  match a.kind with
  | .executable => mainMethod
  | _ => addMethod

def strings (items : List String) : Json := .list (items.map fun (s : String) => .string s)

def methodJson (m : Method) : Json :=
  .object [("name", .string m.name), ("returns", .string m.returns),
    ("parameters", strings m.parameters), ("instructions", strings m.instructions)]

def json (a : Artifact) : Json :=
  .object [("format", .string "seanet-artifact"), ("version", .number 1),
    ("name", .string a.name), ("kind", .string a.kind.name),
    ("type", .string (a.name ++ "." ++ a.name)), ("methods", .list [methodJson a.method])]

def fileText (a : Artifact) : Text := a.json.pretty ++ [Text.lineFeed]

end Artifact

end Seanet
