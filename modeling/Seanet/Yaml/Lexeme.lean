import Seanet.Lexical.Shape

set_option autoImplicit false

namespace Seanet

namespace Yaml

inductive Mark where
  | byteOrderMark
  /-- The beginning of a document that has no marker; it has no text. -/
  | documentMode
  /-- A flow collection cut short by its indentation; it has no text. -/
  | flowCut
  | plain | documentStart | documentEnd | newline
  | itemIndicator | keyIndicator | valueIndicator
  | mapStart | mapEnd | seqStart | seqEnd | comma
  | space | comment | directive | reference | anchor | tag
  | singleQuoted | doubleQuoted | blockHeader
  | unknown
  deriving DecidableEq, Repr

namespace Mark

def name : Mark → String
  | byteOrderMark => "byte-order-mark"
  | documentMode => "doc-mode"
  | flowCut => "flow-error-end"
  | plain => "scalar"
  | documentStart => "doc-start"
  | documentEnd => "doc-end"
  | newline => "newline"
  | itemIndicator => "seq-item-ind"
  | keyIndicator => "explicit-key-ind"
  | valueIndicator => "map-value-ind"
  | mapStart => "flow-map-start"
  | mapEnd => "flow-map-end"
  | seqStart => "flow-seq-start"
  | seqEnd => "flow-seq-end"
  | comma => "comma"
  | space => "space"
  | comment => "comment"
  | directive => "directive-line"
  | reference => "alias"
  | anchor => "anchor"
  | tag => "tag"
  | singleQuoted => "single-quoted-scalar"
  | doubleQuoted => "double-quoted-scalar"
  | blockHeader => "block-scalar-header"
  | unknown => "unknown"

def isEmpty : Mark → Bool
  | space | comment | newline => true
  | _ => false

def ofText (t : Text) : Mark :=
  if t == Text.ofString "---" then documentStart
  else if t == Text.ofString "..." then documentEnd
  else if t.isEmpty || t == [0x0A] || t == [0x0D, 0x0A] then newline
  else if t == Text.ofString "-" then itemIndicator
  else if t == Text.ofString "?" then keyIndicator
  else if t == Text.ofString ":" then valueIndicator
  else if t == Text.ofString "\x7b" then mapStart
  else if t == Text.ofString "\x7d" then mapEnd
  else if t == Text.ofString "[" then seqStart
  else if t == Text.ofString "]" then seqEnd
  else if t == Text.ofString "," then comma
  else
    match t.head? with
    | some 0xFEFF => byteOrderMark
    | some 0x20 | some 0x09 => space
    | some 0x23 => comment
    | some 0x25 => directive
    | some 0x2A => reference
    | some 0x26 => anchor
    | some 0x21 => tag
    | some 0x27 => singleQuoted
    | some 0x22 => doubleQuoted
    | some 0x7C | some 0x3E => blockHeader
    | _ => unknown

end Mark

def isBlankOrEnd : Option UInt16 → Bool
  | none => true
  | some u => u == 0x20 || u == 0x0A || u == 0x0D || u == 0x09

def isSpaceOrTab (u : UInt16) : Bool := u == 0x20 || u == 0x09

def isFlowIndicator : Option UInt16 → Bool
  | none => false
  | some u => (Text.ofString ",[]\x7b\x7d").contains u

def isAnchorUnit (u : UInt16) : Bool := !(Text.ofString " ,[]\x7b\x7d\n\r\t").contains u

def isTagUnit (u : UInt16) : Bool :=
  Lexical.isDigit u || (0x41 ≤ u && u ≤ 0x5A) || (0x61 ≤ u && u ≤ 0x7A) ||
    (Text.ofString "-#;/?:@&=+$_.!~*'()").contains u

section Ends

variable (text : Array UInt16)

def skipWhile (p : UInt16 → Bool) (i : Nat) : Nat :=
  if h : i < text.size then if p text[i] then skipWhile p (i + 1) else i else i
termination_by text.size - i

def find? (u : UInt16) (i : Nat) : Option Nat :=
  let j := skipWhile text (· != u) i
  if j < text.size then some j else none

def marker? (i : Nat) : Option UInt16 :=
  match text[i]? with
  | some u =>
    if (u == Text.unit '-' || u == Text.unit '.') && text[i + 1]? == some u &&
        text[i + 2]? == some u && isBlankOrEnd text[i + 3]? then some u else none
  | none => none

/-- Whether a scalar goes on at the line that begins at `i`, and from where: the line is blank or
indented far enough. Without a required indentation only a document marker ends the scalar. -/
def continue? (required i : Nat) : Option Nat :=
  if required = 0 then if (marker? text i).isSome then none else some i
  else
    let j := skipWhile text (· == 0x20) i
    if text[j]? == some 0x0D && text[j + 1]? == some 0x0A then some (j + 1)
    else if text[j]? == some 0x0A || required ≤ j - i then some j
    else none

/-- The end of a plain scalar: `stop` is the end of what is known to belong to it, `i` is where
reading goes on. -/
def plainEnd (inFlow : Bool) (required i stop : Nat) : Nat :=
  if h : i < text.size then
    let u := text[i]
    let next := text[i + 1]?
    if u == Text.unit ':' then
      if isBlankOrEnd next || (inFlow && isFlowIndicator next) then stop
      else plainEnd inFlow required (i + 1) (i + 1)
    else if u == 0x0A || (u == 0x0D && next == some 0x0A) then
      let j := if u == 0x0A then i else i + 1
      let next := text[j + 1]?
      if next == some 0x23 || (inFlow && isFlowIndicator next) then stop
      else
        match continue? text required (j + 1) with
        | none => stop
        | some k => plainEnd inFlow required (max j (k - 2) + 1) stop
    else if isBlankOrEnd (some u) then
      let stop := if u == 0x0D then i + 1 else stop
      if next == some 0x23 || (inFlow && isFlowIndicator next) then stop
      else plainEnd inFlow required (i + 1) stop
    else if inFlow && isFlowIndicator (some u) then stop
    else plainEnd inFlow required (i + 1) (i + 1)
  else stop
termination_by text.size - i
decreasing_by all_goals (first | omega | (split <;> omega))

def closingSingle? (i : Nat) : Option Nat :=
  if h : i < text.size then
    if text[i] == 0x27 then
      if text[i + 1]? == some 0x27 then closingSingle? (i + 2) else some i
    else closingSingle? (i + 1)
  else none
termination_by text.size - i

def closingDouble? (i : Nat) : Option Nat :=
  if h : i < text.size then
    if text[i] == 0x5C then closingDouble? (i + 2)
    else if text[i] == 0x22 then some i
    else closingDouble? (i + 1)
  else none
termination_by text.size - i

/-- Within `[i, close)`, the first line end behind which the scalar does not go on. -/
def brokenLine? (required close i : Nat) : Option Nat :=
  if i < text.size then
    let nl := skipWhile text (· != 0x0A) i
    if i ≤ nl ∧ nl < close then
      match continue? text required (nl + 1) with
      | none => some nl
      | some k => brokenLine? required close (max k (nl + 1))
    else none
  else none
termination_by text.size - i

/-- The end of a quoted scalar that begins at `i`. A line that is not indented cuts it short;
without a closing quote it takes the rest of the text. -/
def quotedEnd (required i : Nat) : Nat :=
  let close? := if text[i]? == some 0x27 then closingSingle? text (i + 1)
    else closingDouble? text (i + 1)
  match close? with
  | none => text.size
  | some close =>
    match brokenLine? text required close i with
    | none => close + 1
    | some nl => if text[nl - 1]? == some 0x0D then nl - 1 else nl

def tagUnitsEnd (i : Nat) : Nat :=
  if h : i < text.size then
    if isTagUnit text[i] then tagUnitsEnd (i + 1)
    else if text[i] == 0x25 && text[i + 1]?.any Lexical.isHexDigit &&
        text[i + 2]?.any Lexical.isHexDigit then
      tagUnitsEnd (i + 3)
    else i
  else i
termination_by text.size - i

def tagEnd (i : Nat) : Nat :=
  if text[i + 1]? == some 0x3C then
    let j := skipWhile text (fun u => !isBlankOrEnd (some u) && u != 0x3E) (i + 2)
    if text[j]? == some 0x3E then j + 1 else j
  else tagUnitsEnd text (i + 1)

def leadingBlank (i lineStart indent : Nat) : Nat × Nat :=
  if h : i < text.size then
    if text[i] == 0x20 then leadingBlank (i + 1) lineStart (indent + 1)
    else if text[i] == 0x0A then leadingBlank (i + 1) (i + 1) 0
    else if text[i] == 0x0D && text[i + 1]? == some 0x0A then
      leadingBlank (i + 1) lineStart indent
    else (lineStart, indent)
  else (lineStart, indent)
termination_by text.size - i

/-- The beginning of the first line, from the one at `lineStart` on, that is not part of a block
scalar; it is past the end of the text when there is none. -/
def blockLinesEnd (required lineStart : Nat) : Nat :=
  if lineStart < text.size then
    match continue? text required lineStart with
    | none => lineStart
    | some k =>
      let nl := skipWhile text (· != 0x0A) (max k lineStart)
      if lineStart ≤ nl ∧ nl < text.size then blockLinesEnd required (nl + 1)
      else text.size + 1
  else
    match continue? text required lineStart with
    | none => lineStart
    | some _ => text.size + 1
termination_by text.size - lineStart

/-- Gives up blank lines at the end of a block scalar that begins at `start`: `lineStart` is the
beginning of the line behind it. -/
def withoutTrailingBlank (start indent : Nat) (lineStart : Nat) : Nat :=
  match lineStart with
  | 0 => 0
  | 1 => 1
  | n + 2 =>
    -- `n` is the last unit of the line before, if that line has one
    let last : Option Nat := if text[n]? == some 0x0D then
        (if n = 0 then none else some (n - 1))
      else some n
    match last with
    | none => n + 2
    | some last =>
      let spaces :=
        ((List.range (last + 1)).reverse.takeWhile fun i => text[i]? == some 0x20).length
      if spaces ≤ last then
        let i := last - spaces
        if text[i]? == some 0x0A && start ≤ i && last < i + 1 + indent && i ≤ n then
          withoutTrailingBlank start indent (i + 1)
        else n + 2
      else n + 2
termination_by lineStart
decreasing_by simp_all only [Bool.and_eq_true, decide_eq_true_eq]; omega

end Ends

structure Lexeme where
  mark : Mark
  source : Text
  deriving DecidableEq, Repr

inductive Mode where
  | stream | blockStart | document | flow
  deriving DecidableEq, Repr

structure Reader where
  text : Array UInt16
  pos : Nat
  indent : Nat
  required : Nat
  flowLevel : Nat
  /-- A `:` right here ends a key, whatever follows it. -/
  flowKey : Bool
  lexemes : Array Lexeme

abbrev Reading := StateM Reader

namespace Reader

def peek (n : Nat) : Reading (Option UInt16) := do
  let r ← get
  return r.text[r.pos + n]?

def takeAs (mark : Mark) (stop : Nat) : Reading Unit :=
  modify fun r =>
    let stop := min stop r.text.size
    { r with
      pos := max r.pos stop
      lexemes := r.lexemes.push ⟨mark, (r.text.extract r.pos stop).toList⟩ }

def place (mark : Mark) : Reading Unit :=
  modify fun r => { r with lexemes := r.lexemes.push ⟨mark, []⟩ }

def takeTo (stop : Nat) : Reading Nat := do
  let r ← get
  let stop := min stop r.text.size
  if r.pos < stop then
    let source := (r.text.extract r.pos stop).toList
    takeAs (Mark.ofText source) stop
    return stop - r.pos
  else return 0

def takeCount (n : Nat) : Reading Nat := do takeTo ((← get).pos + n)

def takeSpaces (tabs : Bool) : Reading Nat := do
  let r ← get
  takeTo (skipWhile r.text (fun u => u == 0x20 || (tabs && u == 0x09)) r.pos)

def takeNewline : Reading Nat := do
  match ← peek 0, ← peek 1 with
  | some 0x0A, _ => takeCount 1
  | some 0x0D, some 0x0A => takeCount 2
  | _, _ => return 0

def lineEnd : Reading Nat := do
  let r ← get
  let nl := skipWhile r.text (· != 0x0A) r.pos
  return if nl < r.text.size && r.pos < nl && r.text[nl - 1]? == some 0x0D then nl - 1 else nl

def plainScalar : Reading Unit := do
  let r ← get
  takeAs .plain (plainEnd r.text (0 < r.flowLevel) r.required r.pos r.pos)

def quotedScalar : Reading Unit := do
  let r ← get
  let _ ← takeTo (quotedEnd r.text r.required r.pos)

def indicators : Nat → Reading Unit
  | 0 => return
  | n + 1 => do
    let r ← get
    match ← peek 0 with
    | some 0x21 =>
      let _ ← takeTo (tagEnd r.text r.pos)
      let _ ← takeSpaces true
      indicators n
    | some 0x26 =>
      let _ ← takeTo (skipWhile r.text isAnchorUnit r.pos)
      let _ ← takeSpaces true
      indicators n
    | some u =>
      let next ← peek 1
      let inFlow := 0 < r.flowLevel
      if (u == Text.unit '-' || u == Text.unit '?' || u == Text.unit ':') &&
          (isBlankOrEnd next || (inFlow && isFlowIndicator next)) then
        if inFlow then modify fun r => { r with flowKey := false }
        else modify fun r => { r with required := r.indent + 1 }
        let _ ← takeCount 1
        let _ ← takeSpaces true
        indicators n
      else return
    | none => return

def blockStart : Reading Mode := do
  match ← peek 0 with
  | some u =>
    if (u == Text.unit '-' || u == Text.unit '?' || u == Text.unit ':') &&
        isBlankOrEnd (← peek 1) then
      let a ← takeCount 1
      let b ← takeSpaces true
      modify fun r => { r with required := r.indent + 1, indent := r.indent + a + b }
      return .blockStart
    else return .document
  | none => return .document

def lineStart : Reading Mode := do
  let r ← get
  match marker? r.text r.pos with
  | some u =>
    let _ ← takeCount 3
    modify fun r => { r with indent := 0, required := 0 }
    return if u == Text.unit '-' then .document else .stream
  | none =>
    let n ← takeSpaces false
    modify fun r => { r with indent := n }
    if n < (← get).required && !isBlankOrEnd (← peek 1) then
      modify fun r => { r with required := n }
    blockStart

def blockHeader : Reading (Option Nat × Bool) := do
  let r ← get
  let flags := skipWhile r.text
    (fun u => u == 0x2B || u == 0x2D || (0x31 ≤ u && u ≤ 0x39)) (r.pos + 1)
  let header := (r.text.extract (r.pos + 1) flags).toList
  let asked := (header.filter fun u => 0x31 ≤ u && u ≤ 0x39).getLast?.map fun u => u.toNat - 0x31
  let _ ← takeTo (skipWhile r.text (fun u => !isBlankOrEnd (some u) && u != 0x23) r.pos)
  return (asked, header.contains 0x2B)

def blockScalar (asked : Option Nat) (keep : Bool) : Reading Mode := do
  let r ← get
  let (first, indent) := leadingBlank r.text r.pos r.pos 0
  let mut stop := first
  if r.required ≤ indent then
    let required := match asked with
      | none => indent
      | some n => n + (if r.required = 0 then 1 else r.required)
    modify fun r => { r with required }
    stop := blockLinesEnd r.text required first
  let behind := skipWhile r.text (· == 0x20) stop
  if r.text[behind]? == some 0x09 then
    stop := skipWhile r.text (fun u => u == 0x09 || u == 0x20 || u == 0x0D || u == 0x0A) behind
  else if !keep then
    stop := withoutTrailingBlank r.text r.pos indent stop
  takeAs .plain stop
  lineStart

def stream : Reading Mode := do
  if (← peek 0) == some 0xFEFF then
    let _ ← takeCount 1
  let r ← get
  let stop ← lineEnd
  if (← peek 0) == some 0x25 then
    let units := (r.text.extract r.pos stop).toList
    -- the directive ends before a comment, which follows a blank
    let body := (List.range units.length).find? fun i =>
      0 < i && units[i]? == some 0x23 && (units[i - 1]?.map isSpaceOrTab).getD false
    let body := units.take (body.getD units.length)
    let size := (body.reverse.dropWhile isSpaceOrTab).length
    let _ ← takeCount size
    let _ ← takeSpaces true
    let _ ← takeTo stop
    let _ ← takeNewline
    return .stream
  let first := skipWhile r.text isSpaceOrTab r.pos
  if r.text[first]? == none || r.text[first]? == some 0x23 || stop ≤ first then
    let _ ← takeSpaces true
    let _ ← takeTo stop
    let _ ← takeNewline
    return .stream
  place .documentMode
  lineStart

def document : Reading Mode := do
  let _ ← takeSpaces true
  let stop ← lineEnd
  indicators ((← get).text.size + 1)
  let r ← get
  let here := if r.pos < stop then r.text[r.pos]? else none
  match here with
  | none =>
    let _ ← takeNewline
    lineStart
  | some 0x23 =>
    let _ ← takeTo stop
    let _ ← takeNewline
    lineStart
  | some 0x7B | some 0x5B =>
    let _ ← takeCount 1
    modify fun r => { r with flowKey := false, flowLevel := 1 }
    return .flow
  | some 0x7D | some 0x5D =>
    let _ ← takeCount 1
    return .document
  | some 0x2A =>
    let _ ← takeTo (skipWhile r.text isAnchorUnit r.pos)
    return .document
  | some 0x22 | some 0x27 =>
    quotedScalar
    return .document
  | some 0x7C | some 0x3E =>
    let (asked, keep) ← blockHeader
    let _ ← takeSpaces true
    let _ ← takeTo stop
    let _ ← takeNewline
    blockScalar asked keep
  | some _ =>
    plainScalar
    return .document

def flowBlanks : Nat → Option Nat → Reading (Option Nat)
  | 0, indent => return indent
  | n + 1, indent => do
    let nl ← takeNewline
    let mut indent := indent
    let mut spaces := 0
    if 0 < nl then
      let sp ← takeSpaces false
      modify fun r => { r with indent := sp }
      indent := some sp
      spaces := sp
    spaces := spaces + (← takeSpaces true)
    if 0 < nl + spaces then flowBlanks n indent else return indent

def commas : Nat → Reading Unit
  | 0 => return
  | n + 1 => do
    if (← peek 0) == some 0x2C then
      let _ ← takeCount 1
      let _ ← takeSpaces true
      modify fun r => { r with flowKey := false }
      commas n
    else return

def flowContent (stop : Nat) : Reading Mode := do
  let r ← get
  let here := if r.pos < stop then r.text[r.pos]? else none
  match here with
  | none => return .flow
  | some 0x23 =>
    let _ ← takeTo stop
    return .flow
  | some 0x7B | some 0x5B =>
    let _ ← takeCount 1
    modify fun r => { r with flowKey := false, flowLevel := r.flowLevel + 1 }
    return .flow
  | some 0x7D | some 0x5D =>
    let _ ← takeCount 1
    modify fun r => { r with flowKey := true, flowLevel := r.flowLevel - 1 }
    return if 1 < r.flowLevel then .flow else .document
  | some 0x2A =>
    let _ ← takeTo (skipWhile r.text isAnchorUnit r.pos)
    return .flow
  | some 0x22 | some 0x27 =>
    modify fun r => { r with flowKey := true }
    quotedScalar
    return .flow
  | some u =>
    let next ← peek 1
    modify fun r => { r with flowKey := false }
    if u == Text.unit ':' && (r.flowKey || isBlankOrEnd next || next == some 0x2C) then
      let _ ← takeCount 1
      let _ ← takeSpaces true
      return .flow
    else
      plainScalar
      return .flow

def flow : Reading Mode := do
  let size := (← get).text.size + 1
  let indent ← flowBlanks size none
  let r ← get
  let stop ← lineEnd
  let here := if r.pos < stop then r.text[r.pos]? else none
  let outdented := match indent with
    | none => false
    | some n =>
      (n < r.required && here != some 0x23) || (n = 0 && (marker? r.text r.pos).isSome)
  let closes := r.flowLevel = 1 && (here == some 0x5D || here == some 0x7D) &&
    indent.any (· + 1 == r.required)
  if outdented && !closes then
    modify fun r => { r with flowLevel := 0 }
    place .flowCut
    lineStart
  else
    commas size
    indicators size
    flowContent stop

def readAll : Nat → Mode → Reading Unit
  | 0, _ => return
  | n + 1, mode => do
    let r ← get
    if r.pos < r.text.size then
      let next ← match mode with
        | .stream => stream
        | .blockStart => blockStart
        | .document => document
        | .flow => flow
      readAll n next
    else return

end Reader

/-- The lexemes of a text. A step that reads nothing changes the mode, and there are four of them,
so four steps to a unit are enough. -/
def lexemes (t : Text) : List Lexeme :=
  let start : Reader := ⟨t.toArray, 0, 0, 0, 0, false, #[]⟩
  ((Reader.readAll (4 * (t.length + 1)) .stream).run start).2.lexemes.toList

end Yaml

end Seanet
