import Seanet.Yaml.Lexeme

/-!
# Outlines

The outline of a YAML text says which lexemes belong together: scalars, collections with their
items, documents. It is built in one pass with a stack of what is still open, by indentation alone;
what is wrong with it is found when nodes are made of it.
-/

set_option autoImplicit false

namespace Seanet

namespace Yaml

structure Placed where
  mark : Mark
  offset : Nat
  indent : Nat
  source : Text
  deriving DecidableEq, Repr

/-- An item of a collection: what stands before it, its key, what stands between key and value, and
its value. An item of a sequence has only a value. -/
structure Item (π : Type) where
  start : List Placed
  explicitKey : Bool
  key : Option π
  separator : Option (List Placed)
  value : Option π
  deriving Repr

inductive Part where
  | scalar (mark : Mark) (offset indent : Nat) (source : Text) (ending : Option (List Placed))
  | block (offset indent : Nat) (props : List Placed) (source : Text)
  | map (offset indent : Nat) (items : List (Item Part))
  | seq (offset indent : Nat) (items : List (Item Part))
  | flow (offset indent : Nat) (start : Placed) (items : List (Item Part)) (ending : List Placed)
  | misplaced (offset : Nat) (message : Text) (source : Text)
  deriving Repr

inductive Section where
  | document (offset : Nat) (start : List Placed) (value : Option Part)
      (ending : Option (List Placed))
  | documentEnd (mark : Placed) (ending : List Placed)
  | directive (lexeme : Placed)
  | misplaced (offset : Nat) (message : Text) (source : Text)
  | blank (lexeme : Placed)
  deriving Repr

/-- What is still open. -/
inductive Frame where
  | document (offset : Nat) (start : List Placed) (value : Option Part)
      (ending : Option (List Placed))
  | documentEnd (mark : Placed) (ending : Option (List Placed))
  | part (p : Part)

structure Builder where
  indent : Nat
  atNewLine : Bool
  onKeyLine : Bool
  stack : List Frame
  sections : Array Section

def Item.of {π : Type} (start : List Placed) : Item π := ⟨start, false, none, none, none⟩

namespace Item

variable {π : Type}

def isVacant (it : Item π) : Bool :=
  it.separator.isNone && it.value.isNone && !it.start.isEmpty && it.start.all (·.mark.isEmpty)

end Item

namespace Part

def indent? : Part → Option Nat
  | scalar _ _ n _ _ | block _ n _ _ | map _ n _ | seq _ n _ | flow _ n _ _ _ => some n
  | misplaced _ _ _ => none

def offset : Part → Nat
  | scalar _ o _ _ _ | block o _ _ _ | map o _ _ | seq o _ _ | flow o _ _ _ _
  | misplaced o _ _ => o

def ending? : Part → Option (List Placed)
  | scalar _ _ _ _ e => e
  | flow _ _ _ _ e => some e
  | _ => none

def withEnding (e : List Placed) : Part → Part
  | scalar m o i s _ => scalar m o i s (some e)
  | flow o i st items _ => flow o i st items e
  | p => p

def isInline : Part → Bool
  | scalar _ _ _ _ _ | flow _ _ _ _ _ => true
  | _ => false

def isBlockCollection : Part → Bool
  | map _ _ _ | seq _ _ _ => true
  | _ => false

end Part

def hasMark (m : Mark) (ls : List Placed) : Bool := ls.any (·.mark == m)

def changeLast {α : Type} (f : α → α) : List α → List α
  | [] => []
  | [a] => [f a]
  | a :: b :: rest => a :: changeLast f (b :: rest)

/-- Cuts off the properties at the end of a list that belong to the key of a new map: all behind the
last indicator or line end, and the blanks right after that. -/
def splitKeyProps (before : List Placed) : List Placed × List Placed :=
  let isStop (l : Placed) : Bool :=
    match l.mark with
    | .documentStart | .keyIndicator | .valueIndicator | .itemIndicator | .newline => true
    | _ => false
  let tail := (before.reverse.takeWhile fun l => !isStop l).reverse
  let head := before.take (before.length - tail.length)
  let blanks := tail.takeWhile (·.mark == .space)
  (head ++ blanks, tail.drop blanks.length)

/-- In a flow sequence an item that has no `:` is a value, not a key. -/
def settleItem (it : Item Part) : Item Part :=
  match it.separator with
  | none => it
  | some separator =>
    if it.value.isNone && !hasMark .keyIndicator it.start && !hasMark .valueIndicator separator then
      match it.key with
      | some key =>
        if key.isInline then
          { it with
            key := none, separator := none
            value := some (key.withEnding ((key.ending?.getD []) ++ separator)) }
        else { it with key := none, separator := none, value := some key,
                       start := it.start ++ separator }
      | none => { it with separator := none, start := it.start ++ separator }
    else it

def settle (atDocument : Bool) : Part → Part
  | .flow o i start items ending =>
    let i := if atDocument then 0 else i
    let items := if start.mark = .seqStart then items.map settleItem else items
    .flow o i start items ending
  | p => p

def dropVacant (p : Part) : Part × Option (List Placed) :=
  let check (indent : Nat) (items : List (Item Part)) : Option (List Placed) :=
    match items.getLast? with
    | some last =>
      if last.isVacant &&
          (indent == 0 || last.start.all fun l => l.mark != .comment || l.indent < indent) then
        some last.start
      else none
    | none => none
  match p with
  | .map o i items =>
    match check i items with
    | some start => (.map o i items.dropLast, some start)
    | none => (p, none)
  | .seq o i items =>
    match check i items with
    | some start => (.seq o i items.dropLast, some start)
    | none => (p, none)
  | p => (p, none)

namespace Builder

def emit (b : Builder) (s : Section) : Builder := { b with sections := b.sections.push s }

def push (b : Builder) (f : Frame) : Builder := { b with stack := f :: b.stack }

def replace (b : Builder) (f : Frame) : Builder := { b with stack := f :: b.stack.drop 1 }

def attach (b : Builder) (p : Part) : Builder :=
  match b.stack with
  | [] => b
  | .document o start _ ending :: rest =>
    let (p, vacant) := dropVacant (settle true p)
    { b with stack := .document o start (some p) (vacant.or ending) :: rest }
  | .part (.map o i items) :: rest =>
    let p := settle false p
    match items.getLast? with
    | none => b
    | some it =>
      if it.value.isSome then
        { b with
          stack := .part (.map o i (items ++ [⟨[], false, some p, some [], none⟩])) :: rest
          onKeyLine := true }
      else if it.separator.isSome then
        let (p, vacant) := dropVacant p
        let items := changeLast (fun it => { it with value := some p }) items
        let items := items ++ (vacant.toList.map Item.of)
        { b with stack := .part (.map o i items) :: rest }
      else
        let items := changeLast (fun it => { it with key := some p, separator := some [] }) items
        { b with stack := .part (.map o i items) :: rest, onKeyLine := !it.explicitKey }
  | .part (.seq o i items) :: rest =>
    let (p, vacant) := dropVacant (settle false p)
    match items.getLast? with
    | none => b
    | some it =>
      let items := if it.value.isSome then items ++ [⟨[], false, none, none, some p⟩]
        else changeLast (fun it => { it with value := some p }) items
      { b with stack := .part (.seq o i (items ++ vacant.toList.map Item.of)) :: rest }
  | .part (.flow o i start items ending) :: rest =>
    let p := settle false p
    let fresh : Item Part := ⟨[], false, some p, some [], none⟩
    let items := match items.getLast? with
      | none => items ++ [fresh]
      | some it =>
        if it.value.isSome then items ++ [fresh]
        else if it.separator.isSome then
          changeLast (fun it => { it with value := some p }) items
        else changeLast (fun it => { it with key := some p, separator := some [] }) items
    { b with stack := .part (.flow o i start items ending) :: rest }
  | .part (.block o i props source) :: rest =>
    let props := match p with
      | .misplaced o _ s => props ++ [⟨.unknown, o, 0, s⟩]
      | _ => props
    { b with stack := .part (.block o i props source) :: rest }
  | _ => b

/-- Closes the frame on top. A block scalar takes its indentation from what holds it. -/
def pop (b : Builder) : Builder :=
  match b.stack with
  | [] => b
  | .document o start value ending :: rest =>
    { b with stack := rest }.emit (.document o start value ending)
  | .documentEnd mark ending :: rest =>
    { b with stack := rest }.emit (.documentEnd mark (ending.getD []))
  | .part p :: rest =>
    let p := match p with
      | .block o _ props source =>
        let indent := match rest with
          | .part q :: _ => q.indent?.getD 0
          | _ => 0
        .block o indent props source
      | p => p
    { b with stack := rest }.attach p

def popAll : Nat → Builder → Builder
  | 0, b => b
  | n + 1, b => if b.stack.isEmpty then b else popAll n b.pop

def takeKeyProps (b : Builder) : Builder × List Placed :=
  match b.stack with
  | .document o start value ending :: rest =>
    let (kept, taken) := splitKeyProps start
    ({ b with stack := .document o kept value ending :: rest }, taken)
  | .part (.map o i items) :: rest =>
    match items.getLast? with
    | none => (b, [])
    | some it =>
      match it.separator with
      | some separator =>
        let (kept, taken) := splitKeyProps separator
        let items := changeLast (fun it => { it with separator := some kept }) items
        ({ b with stack := .part (.map o i items) :: rest }, taken)
      | none =>
        let (kept, taken) := splitKeyProps it.start
        let items := changeLast (fun it => { it with start := kept }) items
        ({ b with stack := .part (.map o i items) :: rest }, taken)
  | .part (.seq o i items) :: rest =>
    match items.getLast? with
    | none => (b, [])
    | some it =>
      let (kept, taken) := splitKeyProps it.start
      let items := changeLast (fun it => { it with start := kept }) items
      ({ b with stack := .part (.seq o i items) :: rest }, taken)
  | _ => (b, [])

def inlineScalar (l : Placed) : Part := .scalar l.mark l.offset l.indent l.source none

def begin? (b : Builder) (l : Placed) : Option (Builder × Part) :=
  match l.mark with
  | .reference | .plain | .singleQuoted | .doubleQuoted => some (b, inlineScalar l)
  | .blockHeader => some (b, .block l.offset l.indent [l] [])
  | .mapStart | .seqStart => some (b, .flow l.offset l.indent l [] [])
  | .itemIndicator => some (b, .seq l.offset l.indent [Item.of [l]])
  | .keyIndicator =>
    let (b, taken) := { b with onKeyLine := true }.takeKeyProps
    some (b, .map l.offset l.indent [⟨taken ++ [l], true, none, none, none⟩])
  | .valueIndicator =>
    let (b, taken) := { b with onKeyLine := true }.takeKeyProps
    some (b, .map l.offset l.indent [⟨taken, false, none, some [l], none⟩])
  | _ => none

/-- What the next lexeme leads to: it is taken in, or the frame on top is closed and the lexeme is
looked at again. -/
inductive Outcome where
  | taken (b : Builder)
  | again (b : Builder)

open Outcome

def atStream (b : Builder) (l : Placed) : Builder :=
  match l.mark with
  | .directive => b.emit (.directive l)
  | .byteOrderMark | .space | .comment | .newline => b.emit (.blank l)
  | .documentMode => b.push (.document l.offset [] none none)
  | .documentStart => b.push (.document l.offset [l] none none)
  | m =>
    b.emit (.misplaced l.offset ("Unexpected " ++ m.name ++ " token in YAML stream") l.source)

def atLineEnd (b : Builder) (l : Placed) (keep : List Placed → Frame)
    (ending : Option (List Placed)) : Outcome :=
  match l.mark with
  | .comma | .documentStart | .documentEnd | .seqEnd | .mapEnd | .valueIndicator => again b.pop
  | m =>
    let b := b.replace (keep (ending.getD [] ++ [l]))
    if m = .newline then taken { b with onKeyLine := false }.pop else taken b

def atDocument (b : Builder) (l : Placed) (o : Nat) (start : List Placed) (value : Option Part)
    (ending : Option (List Placed)) : Outcome :=
  match value with
  | some v => b.atLineEnd l (fun e => .document o start (some v) (some e)) ending
  | none =>
    let more := taken (b.replace (.document o (start ++ [l]) none ending))
    match l.mark with
    | .documentStart => if start.any (!·.mark.isEmpty) then again b.pop else more
    | .anchor | .tag | .space | .comment | .newline => more
    | m =>
      match b.begin? l with
      | some (b, p) => taken (b.push (.part p))
      | none =>
        taken (b.emit (.misplaced l.offset
          ("Unexpected " ++ m.name ++ " token in YAML document") l.source))

def atScalar (b : Builder) (l : Placed) (m : Mark) (o i : Nat) (source : Text)
    (ending : Option (List Placed)) : Outcome :=
  if l.mark = .valueIndicator then
    let (b, start) := { b with stack := b.stack.drop 1 }.takeKeyProps
    let item : Item Part :=
      ⟨start, false, some (.scalar m o i source none), some (ending.getD [] ++ [l]), none⟩
    taken { b.push (.part (.map o i [item])) with onKeyLine := true }
  else b.atLineEnd l (fun e => .part (.scalar m o i source (some e))) ending

def atBlock (b : Builder) (l : Placed) (o i : Nat) (props : List Placed) : Outcome :=
  match l.mark with
  | .space | .comment | .newline | .unknown =>
    taken (b.replace (.part (.block o i (props ++ [l]) [])))
  | .plain =>
    let b := b.replace (.part (.block o i props l.source))
    taken { b with atNewLine := true, indent := 0 }.pop
  | _ => again b.pop

def isIndentedComment (l : Placed) (start : List Placed) (indent : Nat) : Bool :=
  l.mark == .comment && indent < l.indent &&
    start.all fun s => s.mark == .newline || s.mark == .space

def addBlank (items : List (Item Part)) (indent : Nat) (l : Placed) : List (Item Part) :=
  match items.getLast? with
  | none => items
  | some it =>
    if it.value.isSome then items ++ [Item.of [l]]
    else
      match it.separator with
      | some _ =>
        changeLast (fun it => { it with separator := some (it.separator.getD [] ++ [l]) }) items
      | none =>
        let more := changeLast (fun it => { it with start := it.start ++ [l] }) items
        let before := items.dropLast
        match before.getLast?.bind (·.value) with
        | some v =>
          match v.ending? with
          | some e =>
            if isIndentedComment l it.start indent then
              changeLast (fun b => { b with value := some (v.withEnding (e ++ it.start ++ [l])) })
                before
            else more
          | none => more
        | none => more

def addNewline (items : List (Item Part)) (l : Placed) : List (Item Part) :=
  match items.getLast? with
  | none => items
  | some it =>
    match it.value with
    | some v =>
      match v.ending? with
      | some e =>
        if e.getLast?.any (·.mark == .comment) then
          changeLast (fun it => { it with value := some (v.withEnding (e ++ [l])) }) items
        else items ++ [Item.of [l]]
      | none => items ++ [Item.of [l]]
    | none =>
      changeLast (fun it =>
        match it.separator with
        | some s => { it with separator := some (s ++ [l]) }
        | none => { it with start := it.start ++ [l] }) items

/-- What follows the second line end in a separator that holds nothing else since, when the value
never came: it belongs to the next item. -/
def splitVacant (indent : Nat) (separator : List Placed) : List Placed × List Placed :=
  let ends := (separator.zipIdx).foldl (fun (acc : List Nat) (l, i) =>
    match l.mark with
    | .newline => acc ++ [i]
    | .space => acc
    | .comment => if indent < l.indent then [] else acc
    | _ => []) []
  match ends with
  | _ :: second :: _ => (separator.take second, separator.drop second)
  | _ => (separator, [])

def inMap (b : Builder) (l : Placed) (o i : Nat) (items : List (Item Part)) (it : Item Part) :
    Outcome :=
  let atIndent := !b.onKeyLine && b.indent == i
  let atNext := atIndent && (it.separator.isSome || it.explicitKey) && l.mark != .itemIndicator
  let (kept, start) := match it.separator with
    | some s => if atNext && it.value.isNone then splitVacant i s else (s, [])
    | none => ([], [])
  let items := match it.separator with
    | some _ => changeLast (fun it => { it with separator := some kept }) items
    | none => items
  let it := match it.separator with
    | some _ => { it with separator := some kept }
    | none => it
  let put (items : List (Item Part)) : Builder := b.replace (.part (.map o i items))
  let change (f : Item Part → Item Part) : List (Item Part) := changeLast f items
  let onKey (b : Builder) : Outcome := taken { b with onKeyLine := true }
  let nested (item : Item Part) (items : List (Item Part)) : Outcome :=
    onKey ((put items).push (.part (.map l.offset b.indent [item])))
  let toSeparator : List (Item Part) :=
    change fun it => { it with separator := some (it.separator.getD [] ++ [l]) }
  match l.mark with
  | .anchor | .tag =>
    if atNext || it.value.isSome then onKey (put (items ++ [Item.of (start ++ [l])]))
    else if it.separator.isSome then taken (put toSeparator)
    else taken (put (change fun it => { it with start := it.start ++ [l] }))
  | .keyIndicator =>
    if it.separator.isNone && !it.explicitKey then
      onKey (put (change fun it => { it with start := it.start ++ [l], explicitKey := true }))
    else if atNext || it.value.isSome then
      onKey (put (items ++ [⟨start ++ [l], true, none, none, none⟩]))
    else nested ⟨[l], true, none, none, none⟩ items
  | .valueIndicator =>
    let fresh (start : List Placed) : Item Part := ⟨start, false, none, some [l], none⟩
    match it.separator with
    | none =>
      if it.explicitKey && !hasMark .newline it.start then
        let (kept, props) := splitKeyProps it.start
        nested (fresh props) (change fun it => { it with start := kept })
      else onKey (put (change fun it => { it with key := none, separator := some [l] }))
    | some separator =>
      if it.explicitKey then
        if it.value.isSome then onKey (put (items ++ [fresh []]))
        else if hasMark .valueIndicator separator then nested (fresh start) items
        else if (it.key.map Part.isInline).getD false && !hasMark .newline separator then
          let (kept, props) := splitKeyProps it.start
          nested ⟨props, false, it.key, some (separator ++ [l]), none⟩
            (change fun it => { it with start := kept, key := none, separator := none })
        else
          onKey (put (change fun it =>
            { it with separator := some (separator ++ start ++ [l]) }))
      else if it.value.isSome || atNext then onKey (put (items ++ [fresh start]))
      else if hasMark .valueIndicator separator then nested (fresh []) items
      else onKey (put toSeparator)
  | .reference | .plain | .singleQuoted | .doubleQuoted =>
    let s := inlineScalar l
    if atNext || it.value.isSome then
      onKey (put (items ++ [⟨start, false, some s, some [], none⟩]))
    else if it.separator.isSome then taken ((put items).push (.part s))
    else onKey (put (change fun it => { it with key := some s, separator := some [] }))
  | _ =>
    match (put items).begin? l with
    | none => again (put items).pop
    | some (b, .seq so si sitems) =>
      if !it.explicitKey && it.separator.any (!hasMark .newline ·) then
        taken (b.attach
          (.misplaced l.offset "Unexpected block-seq-ind on same line with key" l.source))
      else taken (b.push (.part (.seq so si sitems)))
    | some (b, p) =>
      let b := if atIndent then
          match b.stack with
          | .part (.map o i items) :: rest =>
            { b with stack := .part (.map o i (items ++ [Item.of start])) :: rest }
          | _ => b
        else b
      taken (b.push (.part p))

def atMap (b : Builder) (l : Placed) (o i : Nat) (items : List (Item Part)) : Outcome :=
  match l.mark with
  | .newline => taken { b.replace (.part (.map o i (addNewline items l))) with onKeyLine := false }
  | .space | .comment => taken (b.replace (.part (.map o i (addBlank items i l))))
  | _ =>
    match items.getLast? with
    | some it => if i ≤ b.indent then b.inMap l o i items it else again b.pop
    | none => again b.pop

def atSeq (b : Builder) (l : Placed) (o i : Nat) (items : List (Item Part)) : Outcome :=
  let put (items : List (Item Part)) : Outcome := taken (b.replace (.part (.seq o i items)))
  let toStart : List (Item Part) :=
    changeLast (fun it => { it with start := it.start ++ [l] }) items
  let otherwise : Outcome :=
    if i < b.indent then
      match b.begin? l with
      | some (b, p) => taken (b.push (.part p))
      | none => again b.pop
    else again b.pop
  match items.getLast? with
  | none => again b.pop
  | some it =>
    match l.mark with
    | .newline => put (addNewline items l)
    | .space | .comment => put (addBlank items i l)
    | .anchor | .tag => if it.value.isSome || b.indent ≤ i then otherwise else put toStart
    | .itemIndicator =>
      if b.indent ≠ i then otherwise
      else if it.value.isSome || hasMark .itemIndicator it.start then
        put (items ++ [Item.of [l]])
      else put toStart
    | _ => otherwise

def inFlow (b : Builder) (l : Placed) (o i : Nat) (start : Placed) (items : List (Item Part)) :
    Outcome :=
  let put (items : List (Item Part)) : Outcome :=
    taken (b.replace (.part (.flow o i start items [])))
  let last := items.getLast?
  let toStart : List (Item Part) :=
    changeLast (fun it => { it with start := it.start ++ [l] }) items
  let toSeparator : List (Item Part) :=
    changeLast (fun it => { it with separator := some (it.separator.getD [] ++ [l]) }) items
  let settled := last.all (·.value.isSome)
  let separated := last.any (·.separator.isSome)
  match l.mark with
  | .comma | .keyIndicator =>
    if last.isNone || separated then put (items ++ [Item.of [l]]) else put toStart
  | .valueIndicator =>
    if settled then put (items ++ [⟨[], false, none, some [l], none⟩])
    else if separated then put toSeparator
    else put (changeLast (fun it => { it with key := none, separator := some [l] }) items)
  | .space | .comment | .newline | .anchor | .tag =>
    if settled then put (items ++ [Item.of [l]])
    else if separated then put toSeparator
    else put toStart
  | .reference | .plain | .singleQuoted | .doubleQuoted =>
    let s := inlineScalar l
    if settled then put (items ++ [⟨[], false, some s, some [], none⟩])
    else if separated then taken (b.push (.part s))
    else put (changeLast (fun it => { it with key := some s, separator := some [] }) items)
  | .mapEnd | .seqEnd => taken (b.replace (.part (.flow o i start items [l])))
  | _ =>
    match b.begin? l with
    | some (b, p) => taken (b.push (.part p))
    | none => again b.pop

def behindFlow (b : Builder) (l : Placed) (o i : Nat) (start : Placed)
    (items : List (Item Part)) (ending : List Placed) : Outcome :=
  let holder := b.stack.drop 1
  let closes : Bool := match holder with
    | .part (.map _ mi mitems) :: _ =>
      (l.mark == .valueIndicator && mi == i) ||
        (l.mark == .newline && mitems.getLast?.all (·.separator.isNone))
    | _ => false
  let inFlow : Bool := match holder with
    | .part (.flow _ _ _ _ _) :: _ => true
    | _ => false
  if closes then again b.pop
  else if l.mark = .valueIndicator && !inFlow then
    let (b, props) := { b with stack := holder }.takeKeyProps
    let key := settle false (.flow o i start items (ending.take 1))
    let item : Item Part := ⟨props, false, some key, some (ending.drop 1 ++ [l]), none⟩
    taken { b.push (.part (.map o i [item])) with onKeyLine := true }
  else b.atLineEnd l (fun e => .part (.flow o i start items e)) (some ending)

def cutFlow : Nat → Builder → Builder
  | 0, b => b
  | n + 1, b =>
    match b.stack with
    | .part (.flow _ _ _ _ _) :: _ => cutFlow n b.pop
    | _ => b

def atFlow (b : Builder) (l : Placed) (o i : Nat) (start : Placed) (items : List (Item Part))
    (ending : List Placed) : Outcome :=
  if l.mark = .flowCut then taken (cutFlow b.stack.length b)
  else if ending.isEmpty then b.inFlow l o i start items
  else b.behindFlow l o i start items ending

def look (b : Builder) (l : Placed) : Outcome :=
  match b.stack with
  | .documentEnd mark ending :: _ =>
    if l.mark = .documentMode then taken b
    else
      let b := b.replace (.documentEnd mark (some (ending.getD [] ++ [l])))
      taken (if l.mark = .newline then b.pop else b)
  | [] =>
    taken (if l.mark = .documentEnd then b.push (.documentEnd l none) else b.atStream l)
  | top :: _ =>
    if l.mark = .documentEnd then
      taken ((popAll b.stack.length b).push (.documentEnd l none))
    else
      match top with
      | .document o start value ending => b.atDocument l o start value ending
      | .part (.scalar m o i source ending) => b.atScalar l m o i source ending
      | .part (.block o i props _) => b.atBlock l o i props
      | .part (.map o i items) => b.atMap l o i items
      | .part (.seq o i items) => b.atSeq l o i items
      | .part (.flow o i start items ending) => b.atFlow l o i start items ending
      | _ => again b.pop

/-- Takes in a lexeme; at most every open frame is closed before. -/
def takeIn : Nat → Builder → Placed → Builder
  | 0, b, _ => b
  | n + 1, b, l =>
    match b.look l with
    | taken b => b
    | again b => takeIn n b l

def next (b : Builder) (offset : Nat) (lexeme : Lexeme) : Builder :=
  let l : Placed := ⟨lexeme.mark, offset, b.indent, lexeme.source⟩
  let b := if lexeme.mark = .plain then { b with atNewLine := false } else b
  let b := takeIn (b.stack.length + 2) b l
  match lexeme.mark with
  | .plain | .documentMode | .flowCut | .unknown => b
  | .newline => { b with atNewLine := true, indent := 0 }
  | .space =>
    if b.atNewLine && lexeme.source.head? == some 0x20 then
      { b with indent := b.indent + lexeme.source.length }
    else b
  | .keyIndicator | .valueIndicator | .itemIndicator =>
    if b.atNewLine then { b with indent := b.indent + lexeme.source.length } else b
  | _ => { b with atNewLine := false }

end Builder

def outline (t : Text) : List Section :=
  let start : Builder := ⟨0, true, false, [], #[]⟩
  let (b, _) := (lexemes t).foldl
    (fun (b, offset) l => (b.next offset l, offset + l.source.length)) (start, 0)
  (Builder.popAll b.stack.length b).sections.toList

end Yaml

end Seanet
