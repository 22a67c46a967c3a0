import Seanet.Json
import Seanet.Yaml.Node

set_option autoImplicit false

namespace Seanet

namespace Yaml

structure Document where
  node : Option Node
  faults : List Fault
  first : Nat
  last : Nat

def makeDocument (offset : Nat) (start : List Placed) (value : Option Part)
    (ending : Option (List Placed)) : Making Document := do
  let r ← resolveProps
    ⟨none, .documentStart, following? value ending, offset, 0, true⟩ start
  if r.props.found.isSome && value.any (·.isBlockCollection) && !r.props.hasNewline then
    note (Fault.point r.stop
      "Block collection cannot start on same line with directives-end marker")
  let node ← match value with
    | some p => makeNode true r p
    | none => emptyNode (emptyOffset r.stop start) r
  let _ ← resolveEnd (ending.getD []) node.range.outer false
  return ⟨some node, [], offset, node.range.outer⟩

def directiveFaults (l : Placed) : List Fault :=
  let words := ((Text.splitOn 0x20 (l.source.map fun u => if u == 0x09 then 0x20 else u)).filter
    (!·.isEmpty))
  let fault (offset : Nat) (message : Text) : Fault :=
    ⟨l.offset + offset, l.offset + l.source.length, message⟩
  match words with
  | [] => []
  | name :: parts =>
    if name == Text.ofString "%YAML" then
      match parts with
      | [version] =>
        let numbers := Text.splitOn (Text.unit '.') version
        if numbers.length = 2 && numbers.all fun n => !n.isEmpty && n.all Lexical.isDigit then []
        else [fault 6 ("Unsupported YAML version " ++ version)]
      | _ => [fault 0 "%YAML directive should contain exactly one part"]
    else if name == Text.ofString "%TAG" && parts.length ≠ 2 then
      [fault 0 "%TAG directive should contain exactly two parts"]
    else []

/-- Documents in the making: those that are complete, the current one, and faults that belong to
none yet. -/
structure Gathering where
  complete : List Document
  current : Option Document
  pending : List Fault
  afterDirective : Bool

namespace Gathering

def report (g : Gathering) (fs : List Fault) : Gathering :=
  match g.current with
  | some d =>
    if g.afterDirective then { g with pending := g.pending ++ fs }
    else { g with current := some { d with faults := d.faults ++ fs } }
  | none => { g with pending := g.pending ++ fs }

def add (g : Gathering) : Section → Gathering
  | .directive l => { g with pending := g.pending ++ directiveFaults l, afterDirective := true }
  | .blank _ => g
  | .misplaced offset message source =>
    let quoted : Text := if source.isEmpty then [] else ": " ++ Json.quote source
    g.report [⟨offset, offset + source.length, message ++ quoted⟩]
  | .document offset start value ending =>
    let (d, faults) := (makeDocument offset start value ending).run #[]
    let unmarked := g.afterDirective && !hasMark .documentStart start
    let missing := if unmarked then
        [Fault.point offset "Missing directives-end/doc-start indicator line"]
      else []
    { complete := g.complete ++ g.current.toList
      current := some { d with faults := g.pending ++ faults.toList ++ missing }
      pending := []
      afterDirective := false }
  | .documentEnd mark ending =>
    match g.current with
    | none =>
      { g with
        pending := g.pending ++ [Fault.of mark "Unexpected doc-end without preceding document"] }
    | some d =>
      let (_, faults) := (resolveEnd ending (mark.offset + mark.source.length) true).run #[]
      { g with
        current := some { d with faults := d.faults ++ g.pending ++ faults.toList }
        pending := [] }

end Gathering

def documents (t : Text) : List Document :=
  let g := (outline t).foldl Gathering.add ⟨[], none, [], false⟩
  match g.current with
  | some d => g.complete ++ [{ d with faults := d.faults ++ g.pending }]
  | none =>
    let missing := if g.afterDirective then
        [Fault.point t.length "Missing directives-end indicator line"]
      else []
    [⟨none, g.pending ++ missing, 0, t.length⟩]

def document (t : Text) : Document :=
  match documents t with
  | [] => ⟨none, [], 0, 0⟩
  | [d] => d
  | d :: second :: _ =>
    { d with
      faults := d.faults ++ [⟨second.first, second.last,
        "Source contains multiple documents; please use YAML.parseAllDocuments()"⟩] }

def lineAndColumn (lines : List Text) (offset : Nat) : Nat × Nat :=
  match lines with
  | [] => (0, offset + 1)
  | [_] => (0, offset + 1)
  | line :: rest =>
    if offset ≤ line.length then (0, offset + 1)
    else
      let (n, column) := lineAndColumn rest (offset - line.length - 1)
      (n + 1, column)

def ellipsis : Text := "…"

def withoutLineEnds (t : Text) : Text :=
  (t.reverse.dropWhile fun u => u == 0x0A || u == 0x0D).reverse

/-- At most eighty units of a line around a column counted from zero, and the column in what is
left. -/
def excerpt (line : Text) (column : Nat) : Text × Nat :=
  let (line, column) :=
    if 60 ≤ column && 80 < line.length then
      let cut := min (column - 39) (line.length - 79)
      (ellipsis ++ line.drop cut, column + 1 - cut)
    else (line, column)
  (if 80 < line.length then line.take 79 ++ ellipsis else line, column)

def Fault.place (t : Text) (f : Fault) : Nat × Nat :=
  let (n, column) := lineAndColumn (Text.splitOn Text.lineFeed t) f.first
  (n + 1, column)

/-- A fault in words: its message with the line and a pointer into it. The line before is shown too
when the fault is where a line begins. -/
def Fault.describe (t : Text) (f : Fault) : Text :=
  let lines := Text.splitOn Text.lineFeed t
  let (n, column) := lineAndColumn lines f.first
  let (endLine, endColumn) := lineAndColumn lines f.last
  let (line, at0) := excerpt (withoutLineEnds (lines.getD n [])) (column - 1)
  let shown := if 0 < n && (line.take at0).all (· == 0x20) then
      let before := lines.getD (n - 1) [] ++ [Text.lineFeed]
      (if 80 < before.length then before.take 79 ++ ellipsis ++ [Text.lineFeed] else before) ++ line
    else line
  let count := if endLine = n && column < endColumn then
      max 1 (min (endColumn - column) (80 - at0))
    else 1
  let pointer := List.replicate at0 0x20 ++ List.replicate count (Text.unit '^')
  let context : Text := if shown.all (· == 0x20) then []
    else ":" ++ [Text.lineFeed, Text.lineFeed] ++ shown ++ [Text.lineFeed] ++ pointer ++
      [Text.lineFeed]
  f.message ++ " at line " ++ Text.ofNat (n + 1) ++ ", column " ++ Text.ofNat column ++ context

mutual

def Node.all : Node → List Node
  | .scalar a v r => [.scalar a v r]
  | .reference n r => [.reference n r]
  | .seq a items r => .seq a items r :: allOf items
  | .map a pairs r => .map a pairs r :: allOfPairs pairs

def allOf : List Node → List Node
  | [] => []
  | n :: rest => n.all ++ allOf rest

def allOfPairs : List (Node × Option Node) → List Node
  | [] => []
  | (k, v) :: rest => k.all ++ allOfOption v ++ allOfPairs rest

def allOfOption : Option Node → List Node
  | none => []
  | some n => n.all

end

def Node.anchor? : Node → Option Text
  | .scalar a _ _ | .seq a _ _ | .map a _ _ => a
  | .reference _ _ => none

/-- What an alias stands for: the last node before it with its anchor. -/
def Document.resolve? (d : Document) (name : Text) (range : Range) : Option Node :=
  let nodes := match d.node with
    | none => []
    | some n => n.all
  let before := nodes.takeWhile fun n =>
    match n with
    | .reference _ r => r != range
    | _ => true
  before.reverse.find? fun n => n.anchor? == some name

def Document.unresolved? (d : Document) : Option Text :=
  let nodes := match d.node with
    | none => []
    | some n => n.all
  nodes.findSome? fun n =>
    match n with
    | .reference name range => if (d.resolve? name range).isSome then none else some name
    | _ => none

def Document.target (d : Document) : Node → Option Node
  | .reference name range => d.resolve? name range
  | n => some n

end Yaml

end Seanet
