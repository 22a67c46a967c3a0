import Seanet.Yaml.Scalar

set_option autoImplicit false

namespace Seanet

namespace Yaml

structure Range where
  first : Nat
  last : Nat
  outer : Nat
  deriving DecidableEq, Repr

inductive Node where
  | scalar (anchor : Option Text) (value : Scalar) (range : Range)
  | reference (name : Text) (range : Range)
  | seq (anchor : Option Text) (items : List Node) (range : Range)
  | map (anchor : Option Text) (pairs : List (Node × Option Node)) (range : Range)
  deriving Repr

namespace Node

def range : Node → Range
  | scalar _ _ r | reference _ r | seq _ _ r | map _ _ r => r

def sameKey : Node → Node → Bool
  | scalar _ (.number .undefined) _, _ => false
  | scalar _ a _, scalar _ b _ => a == b
  | _, _ => false

end Node

abbrev Making := StateM (Array Fault)

def note (f : Fault) : Making Unit := modify (·.push f)

def noteAll (fs : List Fault) : Making Unit := modify (· ++ fs.toArray)

def noteRange (r : Range) (message : Text) : Making Unit := note ⟨r.first, r.last, message⟩

/-- What is looked at of the thing that follows some properties. -/
structure Following where
  offset : Nat
  isBlockCollection : Bool
  isFlowCollection : Bool
  /-- It must not touch a tag or an anchor. -/
  needsSpace : Bool

def Following.ofPart (p : Part) : Following :=
  { offset := p.offset
    isBlockCollection := p.isBlockCollection
    isFlowCollection := match p with
      | .flow _ _ _ _ _ => true
      | _ => false
    needsSpace := match p with
      | .scalar .plain _ _ source _ => !source.isEmpty
      | _ => true }

def Following.ofLexeme (l : Placed) : Following :=
  ⟨l.offset, false, false, l.mark != .space && l.mark != .newline && l.mark != .comma⟩

def following? (p : Option Part) (ls : Option (List Placed)) : Option Following :=
  match p with
  | some p => some (.ofPart p)
  | none => (ls.bind List.head?).map .ofLexeme

structure PropsPlace where
  flow : Option Text
  indicator : Mark
  next : Option Following
  offset : Nat
  parentIndent : Nat
  atLineStart : Bool

structure Props where
  comma : Option Placed
  found : Option Placed
  hasComment : Bool
  hasNewline : Bool
  anchor : Option Placed
  tag : Option Placed
  newlineAfter : Option Placed
  first : Option Nat
  atNewline : Bool
  hasSpace : Bool
  spaceDue : Bool
  tab : Option Placed

namespace Props

def start (place : PropsPlace) : Props :=
  ⟨none, none, false, false, none, none, none, none, place.atLineStart, place.atLineStart, false,
    none⟩

def unseparated : Text :=
  "Tags and anchors must be separated from the next token by white space"

def tabMessage : Text := "Tabs are not allowed as indentation"

def step (place : PropsPlace) (p : Props) (l : Placed) : Making Props := do
  if p.spaceDue && l.mark != .space && l.mark != .newline && l.mark != .comma then
    note (Fault.point l.offset unseparated)
  if let some tab := p.tab then
    if p.atNewline && l.mark != .comment && l.mark != .newline then note (Fault.of tab tabMessage)
  let p := { p with spaceDue := false, tab := none }
  if l.mark = place.indicator then
    if p.anchor.isSome || p.tag.isSome then
      note (Fault.of l ("Anchors and tags must be after the " ++ l.source ++ " indicator"))
    if p.found.isSome then
      note (Fault.of l ("Unexpected " ++ l.source ++ " in " ++ place.flow.getD "collection"))
    return { p with
      found := some l
      atNewline := place.indicator = .itemIndicator || place.indicator = .keyIndicator
      hasSpace := false }
  match l.mark with
  | .space =>
    let isTab := place.flow.isNone && l.source.contains 0x09 &&
      (place.indicator != .documentStart || !(place.next.any (·.isFlowCollection)))
    return { p with tab := if isTab then some l else none, hasSpace := true }
  | .comment =>
    if !p.hasSpace then
      note (Fault.of l "Comments must be separated from other tokens by white space characters")
    return { p with hasComment := true, atNewline := false }
  | .newline =>
    return { p with
      atNewline := true, hasNewline := true, hasSpace := true
      newlineAfter := if p.anchor.isSome || p.tag.isSome then some l else p.newlineAfter }
  | .anchor =>
    if p.anchor.isSome then note (Fault.of l "A node can have at most one anchor")
    return { p with
      anchor := some l, first := p.first.or (some l.offset)
      atNewline := false, hasSpace := false, spaceDue := true }
  | .tag =>
    if p.tag.isSome then note (Fault.of l "A node can have at most one tag")
    return { p with
      tag := some l, first := p.first.or (some l.offset)
      atNewline := false, hasSpace := false, spaceDue := true }
  | m =>
    match m, place.flow with
    | .comma, some flow =>
      if p.comma.isSome then note (Fault.of l ("Unexpected , in " ++ flow))
      return { p with comma := some l, atNewline := false, hasSpace := false }
    | _, _ =>
      note (Fault.of l ("Unexpected " ++ m.name ++ " token"))
      return { p with atNewline := false, hasSpace := false }

end Props

structure Resolved where
  props : Props
  stop : Nat
  start : Nat

def resolveProps (place : PropsPlace) (ls : List Placed) : Making Resolved := do
  let p ← ls.foldlM (Props.step place) (Props.start place)
  let stop := match ls.getLast? with
    | some l => l.offset + l.source.length
    | none => place.offset
  if let some next := place.next then
    if p.spaceDue && next.needsSpace then note (Fault.point next.offset Props.unseparated)
  if let some tab := p.tab then
    if (p.atNewline && tab.indent ≤ place.parentIndent) ||
        place.next.any (·.isBlockCollection) then
      note (Fault.of tab Props.tabMessage)
  return ⟨p, stop, p.first.getD stop⟩

/-- What follows a node on its line: only blanks and comments may. Gives the offset behind it. -/
def resolveEnd (ls : List Placed) (offset : Nat) (strict : Bool) : Making Nat := do
  let (_, offset) ← ls.foldlM (fun (spaced, offset) l => do
    let spaced ← match l.mark with
      | .space | .newline => pure true
      | .comment =>
        if strict && !spaced then
          note (Fault.of l
            "Comments must be separated from other tokens by white space characters")
        pure spaced
      | m =>
        note (Fault.of l ("Unexpected " ++ m.name ++ " at node end"))
        pure spaced
    return (spaced, offset + l.source.length)) (false, offset)
  return offset

def tagName (tag : Placed) : Making (Option Text) := do
  let source := tag.source
  if source == Text.ofString "!" then return some source
  if source.take 2 == Text.ofString "!<" then
    let verbatim := (source.drop 2).dropLast
    if verbatim == Text.ofString "!" || verbatim == Text.ofString "!!" then
      note (Fault.of tag ("Verbatim tags aren't resolved, so " ++ source ++ " is invalid."))
      return none
    if source.getLast? != some 0x3E then note (Fault.of tag "Verbatim tags must end with a >")
    return some verbatim
  let suffix := (source.reverse.takeWhile (· != 0x21)).reverse
  let handle := source.take (source.length - suffix.length)
  if suffix.isEmpty then note (Fault.of tag ("The " ++ source ++ " tag has no suffix"))
  if handle == Text.ofString "!!" then return some ("tag:yaml.org,2002:" ++ suffix)
  if handle == Text.ofString "!" then return some source
  note (Fault.of tag ("Could not resolve tag: " ++ source))
  return none

def taggedScalar (name : Text) (t : Text) : Scalar :=
  let core (s : String) : Bool := name == Text.ofString ("tag:yaml.org,2002:" ++ s)
  match coreScalar t with
  | .null => if core "null" then .null else .text t
  | .bool b => if core "bool" then .bool b else .text t
  | .number n => if core "int" || core "float" then .number n else .text t
  | .text _ => .text t

def scalarValue (isPlain : Bool) (tag : Option Placed) (t : Text) : Making Scalar := do
  match tag with
  | none => return if isPlain then coreScalar t else .text t
  | some tag =>
    match ← tagName tag with
    | some name => return taggedScalar name t
    | none => return if isPlain then coreScalar t else .text t

def emptyNode (offset : Nat) (r : Resolved) : Making Node := do
  let value ← scalarValue true r.props.tag []
  let anchor := r.props.anchor.map fun a => a.source.drop 1
  if let some a := r.props.anchor then
    if a.source.length = 1 then note (Fault.of a "Anchor cannot be an empty string")
  return .scalar anchor value ⟨offset, offset, if r.props.hasComment then r.stop else offset⟩

/-- The place of a scalar that is not written: behind the last thing before it and the blanks that
follow that. -/
def emptyOffset (offset : Nat) (before : List Placed) : Nat :=
  let tail := (before.reverse.takeWhile (·.mark.isEmpty)).reverse
  if tail.length = before.length then offset - (tail.flatMap (·.source)).length
  else
    offset - (tail.flatMap (·.source)).length +
      ((tail.takeWhile (·.mark == .space)).flatMap (·.source)).length

mutual

def hasNewline : Part → Bool
  | .scalar _ _ _ source ending =>
    source.contains 0x0A || (ending.getD []).any (·.mark == .newline)
  | .flow _ _ _ items _ => itemsHaveNewline items
  | _ => true

def itemsHaveNewline : List (Item Part) → Bool
  | [] => false
  | ⟨start, _, key, separator, value⟩ :: rest =>
    hasMark .newline start || hasMark .newline (separator.getD []) ||
      partHasNewline key || partHasNewline value || itemsHaveNewline rest

def partHasNewline : Option Part → Bool
  | none => false
  | some p => hasNewline p

end

def sameColumn : Text := "All mapping items must start at the same column"

def flowName (isMap : Bool) : Text := if isMap then "flow map" else "flow sequence"

def flowTitle (isMap : Bool) : Text := if isMap then "Flow map" else "Flow sequence"

def blockInFlow : Text := "Block collections are not allowed within flow collections"

def duplicateKey : Text := "Map keys must be unique"

def multilineFlowKey : Text := "Implicit keys of flow sequence pairs need to be on a single line"

/-- A block sequence needs its tag and anchor on a line of their own. -/
def checkSeqProps (p : Props) : Making Unit := do
  let last : Option Placed := match p.anchor, p.tag with
    | some a, some t => some (if t.offset < a.offset then a else t)
    | some a, none => some a
    | none, t => t
  if let some l := last then
    let broken := match p.newlineAfter with
      | none => true
      | some nl => nl.offset < l.offset
    if broken then note (Fault.of l "Missing newline after block sequence props")

def checkKey (indent offset : Nat) (start : List Placed) (key : Option Part) (r : Resolved) :
    Making Unit := do
  if r.props.found.isNone then
    if r.props.newlineAfter.isSome || partHasNewline key then
      let message : Text := "Implicit keys need to be on a single line"
      match key with
      | some k =>
        let size := match k with
          | .scalar _ _ _ source _ | .block _ _ _ source => source.length
          | _ => 1
        note ⟨k.offset, k.offset + size, message⟩
      | none => if let some l := start.getLast? then note (Fault.of l message)
  else if r.props.found.any (·.indent != indent) then note (Fault.point offset sameColumn)

def checkKeyColumn (indent offset : Nat) (key : Option Part) : Making Unit := do
  match key with
  | some (.seq _ _ _) =>
    note (Fault.point offset "A block sequence may not be used as an implicit map key")
  | some k =>
    if k.indent?.any (· != indent) then note (Fault.point offset sameColumn)
  | none => return

mutual

def makeNode (atRoot : Bool) (r : Resolved) : Part → Making Node
  | .scalar .reference offset _ source ending => do
    if source.length = 1 then note (Fault.point offset "Alias cannot be an empty string")
    let last := offset + source.length
    let outer ← resolveEnd (ending.getD []) last true
    if r.props.anchor.isSome || r.props.tag.isSome then
      note ⟨offset, last, "An alias node must not specify any properties"⟩
    return .reference (source.drop 1) ⟨offset, last, outer⟩
  | .scalar mark offset _ source ending => do
    let (t, faults) := match mark with
      | .singleQuoted => singleQuotedText offset source
      | .doubleQuoted => doubleQuotedText offset source
      | _ => plainText offset source
    noteAll faults
    let last := offset + source.length
    let outer ← resolveEnd (ending.getD []) last true
    let value ← scalarValue (mark == .plain) r.props.tag t
    anchored r (.scalar (anchorOf r) value ⟨offset, last, outer⟩)
  | .block offset indent props source => do
    let (t, stop, faults) := blockScalarText offset indent props source atRoot
    noteAll faults
    let value ← scalarValue false r.props.tag t
    anchored r (.scalar (anchorOf r) value ⟨offset, stop, stop⟩)
  | .map offset indent items => do
    if let some tag := r.props.tag then let _ ← tagName tag
    let (pairs, stop, outer) ← mapItems indent items [] offset none
    anchored r (.map (anchorOf r) pairs ⟨offset, stop, outer.getD stop⟩)
  | .seq offset indent items => do
    if let some tag := r.props.tag then let _ ← tagName tag
    checkSeqProps r.props
    let (nodes, stop, outer) ← seqItems indent items [] offset none
    anchored r (.seq (anchorOf r) nodes ⟨offset, stop, outer.getD stop⟩)
  | .flow offset indent start items ending => do
    if let some tag := r.props.tag then let _ ← tagName tag
    let isMap := start.mark = .mapStart
    let (nodes, pairs, stop) ←
      flowItems isMap indent items.length items 0 [] [] (offset + start.source.length)
    let closer : Text := if isMap then "\x7d" else "]"
    let (last, behind) ← match ending with
      | [] => do
        note (Fault.point stop (unclosed isMap closer))
        pure (stop, [])
      | c :: rest =>
        if c.source == closer then pure (c.offset + c.source.length, rest)
        else do
          note (Fault.point stop (unclosed isMap closer))
          pure (stop, rest)
    let outer ← resolveEnd behind last true
    let range : Range := ⟨offset, last, outer⟩
    anchored r (if isMap then .map (anchorOf r) pairs range else .seq (anchorOf r) nodes range)
  | .misplaced offset message source => do
    note ⟨offset, offset + source.length, message⟩
    emptyNode offset r
where
  anchorOf (r : Resolved) : Option Text := r.props.anchor.map fun a => a.source.drop 1
  anchored (r : Resolved) (n : Node) : Making Node := do
    if let some a := r.props.anchor then
      if a.source.length = 1 then note (Fault.of a "Anchor cannot be an empty string")
    return n
  unclosed (isMap : Bool) (closer : Text) : Text :=
    if atRoot then flowTitle isMap ++ " must end with a " ++ closer
    else flowTitle isMap ++
      " in block collection must be sufficiently indented and end with a " ++ closer

def makeOr (r : Resolved) (offset : Nat) (before : List Placed) : Option Part → Making Node
  | some p => makeNode false r p
  | none => emptyNode (emptyOffset offset before) r

/-- The items of a block map: its pairs so far, where it has come to, and where comments end it. -/
def mapItems (indent : Nat) : List (Item Part) → List (Node × Option Node) → Nat → Option Nat →
    Making (List (Node × Option Node) × Nat × Option Nat)
  | [], pairs, offset, comments => return (pairs, offset, comments)
  | ⟨start, _, key, separator, value⟩ :: rest, pairs, offset, comments => do
    let k ← resolveProps
      ⟨none, .keyIndicator, following? key separator, offset, indent, true⟩ start
    let implicit := k.props.found.isNone
    if implicit then checkKeyColumn indent offset key
    if implicit && k.props.anchor.isNone && k.props.tag.isNone && separator.isNone then
      mapItems indent rest pairs offset (some k.stop)
    else
      checkKey indent offset start key k
      let keyNode ← makeOr k k.stop start key
      if pairs.any fun p => p.1.sameKey keyNode then note (Fault.point k.stop duplicateKey)
      let v ← resolveProps
        { flow := none, indicator := .valueIndicator, next := value.map .ofPart
          offset := keyNode.range.outer, parentIndent := indent
          atLineStart := match key with
            | none => true
            | some (.block _ _ _ _) => true
            | _ => false } (separator.getD [])
      match v.props.found with
      | some found =>
        if implicit then
          match value with
          | some (.map _ _ _) =>
            if !v.props.hasNewline then
              note (Fault.point v.stop "Nested mappings are not allowed in compact mappings")
          | _ => pure ()
          if k.start + 1024 < found.offset then
            noteRange keyNode.range ("The : indicator must be at most 1024 chars after the " ++
              "start of an implicit block mapping key" : Text)
        let valueNode ← makeOr v v.stop (separator.getD []) value
        mapItems indent rest (pairs ++ [(keyNode, some valueNode)]) valueNode.range.outer comments
      | none =>
        if implicit then
          noteRange keyNode.range "Implicit map keys need to be followed by map values"
        mapItems indent rest (pairs ++ [(keyNode, none)]) v.stop comments

def seqItems (indent : Nat) : List (Item Part) → List Node → Nat → Option Nat →
    Making (List Node × Nat × Option Nat)
  | [], nodes, offset, comments => return (nodes, offset, comments)
  | ⟨start, _, _, _, value⟩ :: rest, nodes, offset, comments => do
    let r ← resolveProps
      ⟨none, .itemIndicator, value.map .ofPart, offset, indent, true⟩ start
    if r.props.found.isNone && r.props.anchor.isNone && r.props.tag.isNone && value.isNone then
      seqItems indent rest nodes offset (some r.stop)
    else
      if r.props.found.isNone then
        match value with
        | some (.seq _ _ _) =>
          note (Fault.point r.stop "All sequence items must start at the same column")
        | _ => note (Fault.point offset "Sequence item without - indicator")
      let node ← makeOr r r.stop start value
      seqItems indent rest (nodes ++ [node]) node.range.outer comments

def flowItems (isMap : Bool) (indent count : Nat) : List (Item Part) → Nat → List Node →
    List (Node × Option Node) → Nat → Making (List Node × List (Node × Option Node) × Nat)
  | [], _, nodes, pairs, offset => return (nodes, pairs, offset)
  | ⟨start, _, key, separator, value⟩ :: rest, i, nodes, pairs, offset => do
    let name := flowName isMap
    let k ← resolveProps
      ⟨some name, .keyIndicator, following? key separator, offset, indent, false⟩ start
    let implicit := k.props.found.isNone
    if implicit && k.props.anchor.isNone && k.props.tag.isNone && separator.isNone &&
        value.isNone then
      match k.props.comma with
      | some comma =>
        if i = 0 then note (Fault.of comma ("Unexpected , in " ++ name))
        else if i + 1 < count then
          note (Fault.point k.start ("Unexpected empty item in " ++ name))
      | none =>
        if i + 1 < count then note (Fault.point k.start ("Unexpected empty item in " ++ name))
      flowItems isMap indent count rest (i + 1) nodes pairs k.stop
    else
      if implicit && !isMap && partHasNewline key then
        if let some p := key then
          let size := match p with
            | .scalar _ _ _ source _ => source.length
            | _ => 1
          note ⟨p.offset, p.offset + size, multilineFlowKey⟩
      match k.props.comma with
      | some comma => if i = 0 then note (Fault.of comma ("Unexpected , in " ++ name))
      | none =>
        if i ≠ 0 then note (Fault.point k.start ("Missing , between " ++ name ++ " items"))
      if !isMap && separator.isNone && implicit then
        let node ← makeOr k k.stop [] value
        if value.any (·.isBlockCollection) then noteRange node.range blockInFlow
        flowItems isMap indent count rest (i + 1) (nodes ++ [node]) pairs node.range.outer
      else
        let keyNode ← makeOr k k.stop start key
        if key.any (·.isBlockCollection) then noteRange keyNode.range blockInFlow
        let v ← resolveProps
          ⟨some name, .valueIndicator, value.map .ofPart, keyNode.range.outer, indent, false⟩
          (separator.getD [])
        match v.props.found with
        | some found =>
          if !isMap && implicit then
            let before := (separator.getD []).takeWhile (· != found)
            if let some nl := before.find? (·.mark == .newline) then
              note (Fault.of nl multilineFlowKey)
            if k.start + 1024 < found.offset then
              note (Fault.of found ("The : indicator must be at most 1024 chars after the " ++
                "start of an implicit flow sequence key" : Text))
        | none =>
          match value with
          | some (.scalar _ o _ source _) =>
            if source.head? == some 0x3A then
              note ⟨o, o + source.length, "Missing space after : in " ++ name⟩
            else note (Fault.point v.start ("Missing , or : between " ++ name ++ " items"))
          | some _ => note (Fault.point v.start ("Missing , or : between " ++ name ++ " items"))
          | none => pure ()
        let valueNode ← match value with
          | some p => some <$> makeNode false v p
          | none =>
            if v.props.found.isSome then
              some <$> emptyNode (emptyOffset v.stop (separator.getD [])) v
            else pure none
        if let some n := valueNode then
          if value.any (·.isBlockCollection) then noteRange n.range blockInFlow
        let offset := match valueNode with
          | some n => n.range.outer
          | none => v.stop
        if isMap then
          if pairs.any fun p => p.1.sameKey keyNode then note (Fault.point k.stop duplicateKey)
          flowItems isMap indent count rest (i + 1) nodes (pairs ++ [(keyNode, valueNode)]) offset
        else
          let ends := (valueNode.getD keyNode).range
          let pair := Node.map none [(keyNode, valueNode)]
            ⟨keyNode.range.first, ends.last, ends.outer⟩
          flowItems isMap indent count rest (i + 1) (nodes ++ [pair]) pairs offset

end

end Yaml

end Seanet
