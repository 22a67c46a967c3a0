import Seanet.Config
import Seanet.Yaml.Document

set_option autoImplicit false

namespace Seanet

structure UnresolvedAlias where
  name : Text
  deriving DecidableEq, Repr

namespace UnresolvedAlias

def message (a : UnresolvedAlias) : Text :=
  "Unresolved alias (the anchor must be set before the alias): " ++ a.name

end UnresolvedAlias

namespace Yaml

def Document.key? (d : Document) (n : Node) : Option Text :=
  match d.target n with
  | some (.scalar _ (.text t) _) => some t
  | _ => none

/-- The value of a node down to a depth, with aliases replaced by what they stand for. What lies
deeper is not told apart. -/
def Document.valueTo (d : Document) : Nat → Node → Config.Value
  | 0, _ => .other
  | depth + 1, n =>
    match d.target n with
    | some (.scalar _ .null _) => .null
    | some (.scalar _ (.text t) _) => .text t
    | some (.scalar _ (.bool b) _) => .bool b
    | some (.seq _ items _) => .list (items.map (d.valueTo depth))
    | some (.map _ pairs _) => .record (pairs.filterMap fun (k, v) =>
        (d.key? k).map fun key => (key, (v.map (d.valueTo depth)).getD .null))
    | _ => .other

/-- Options look at a mapping, at its values and at what those list. -/
def depthOfOptions : Nat := 3

def read (t : Text) : Config.Reading UnresolvedAlias :=
  let d := document t
  { faults := d.faults.map fun f =>
      let (line, column) := f.place t
      ⟨line, column, f.describe t⟩
    value :=
      match d.unresolved? with
      | some name => .error ⟨name⟩
      | none => .ok ((d.node.map (d.valueTo depthOfOptions)).getD .null) }

def reader : Config.Reader := fun t =>
  let r := read t
  ⟨r.faults, r.value.mapError UnresolvedAlias.message⟩

end Yaml

def Config.parse (path text : Text) : Except UnresolvedAlias Configured :=
  Config.ofReading path (Yaml.read text.withoutMark)

end Seanet
