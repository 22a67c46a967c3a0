import Seanet.Lexical.Reading

set_option autoImplicit false

namespace Seanet

structure Segment where
  lexeme : Text
  reading : Reading
  deriving DecidableEq, Repr

namespace Segment

/-- The segment at the front of the text `u` and then `r`; it has at least one unit. -/
def atFront (u : UInt16) (r : Text) : Segment :=
  let extent := Shape.atFront u r
  let lexeme := u :: r.take (extent.size - 1)
  ⟨lexeme, extent.shape.read lexeme⟩

def ofText : Text → List Segment
  | [] => []
  | u :: r => atFront u r :: ofText (r.drop ((Shape.atFront u r).size - 1))
termination_by t => t.length
decreasing_by simp only [List.length_drop, List.length_cons]; omega

end Segment

structure Place where
  offset : Nat
  line : Nat
  column : Nat
  deriving DecidableEq, Repr

namespace Place

def start : Place := ⟨0, 1, 1⟩

def next (p : Place) (u : UInt16) : Place :=
  if u = Text.lineFeed then ⟨p.offset + 1, p.line + 1, 1⟩
  else ⟨p.offset + 1, p.line, p.column + 1⟩

def after (p : Place) (t : Text) : Place := t.foldl next p

def location (p : Place) : Location := ⟨p.line, p.column⟩

end Place

def placed : Place → List Segment → List (Place × Segment)
  | _, [] => []
  | p, s :: rest => (p, s) :: placed (p.after s.lexeme) rest

def Segment.token? (source : Source) (p : Place) (s : Segment) : Option Token :=
  match s.reading with
  | .token kind value => some ⟨kind, p.offset, s.lexeme.length, p.line, p.column, source, value⟩
  | _ => none

def Segment.report? (source : Source) (p : Place) (s : Segment) : Option Report :=
  match s.reading with
  | .fault cause => some ⟨source.name, p.location, cause.message, cause.code⟩
  | _ => none

def Source.endToken (source : Source) : Token :=
  let p := Place.start.after source.text
  ⟨.eof, p.offset, 0, p.line, p.column, source, none⟩

structure Scan where
  tokens : List Token
  reports : Log
  deriving DecidableEq, Repr

/-- Scans a source to its end, whatever faults it holds. -/
def Source.scan (source : Source) : Scan :=
  let segments := placed .start (Segment.ofText source.text)
  { tokens := segments.filterMap (fun (p, s) => s.token? source p) ++ [source.endToken]
    reports := segments.filterMap fun (p, s) => s.report? source p }

end Seanet
