import Seanet.Parser.Program
import Seanet.Proofs.Grammar.Stream

/-!
# Objects with state

A scanner, a parser and the collected diagnostics are objects: their fields keep what the last call
left in them. Arrays of tokens are objects too, known by their addresses, and whoever has an address
sees what is written there. This module has the memory of such a program, and the cursor operations
of the parser on it, as they read and write its fields.

Every parsing method gives back a value or the sign that it gave up after reporting an error. Each
call of a method spends one unit of fuel, so that methods may call each other; a call that has none
left is exhausted, which never happens (`Instances.Fuel`).
-/

set_option autoImplicit false

namespace Seanet

namespace Instances

/-- The diagnostics and, side by side with them, their lines of text. -/
structure Collected where
  entries : List Diagnostic
  formatted : List Text

namespace Collected

def empty : Collected := ⟨[], []⟩

def report (c : Collected) (r : Report) : Collected :=
  ⟨c.entries ++ [r.diagnostic], c.formatted ++ [formatError r.file r.place r.message]⟩

def hasErrors (c : Collected) : Bool := decide (0 < c.entries.length)

def reports (c : Collected) (log : Log) : Collected := log.foldl report c

theorem reports_append (c : Collected) (log log' : Log) :
    c.reports (log ++ log') = (c.reports log).reports log' :=
  List.foldl_append

theorem reports_eq (c : Collected) (log : Log) :
    c.reports log =
      ⟨c.entries ++ log.map Report.diagnostic, c.formatted ++ log.map Report.formatted⟩ := by
  induction log generalizing c with
  | nil => simp [reports]
  | cons r log ih =>
    change (c.report r).reports log = _
    rw [ih]
    simp [report, Report.formatted]

end Collected

/-- The fields of a scanner. -/
structure ScannerFields where
  source : Source
  tokens : Nat
  current : Nat
  line : Nat
  column : Nat
  tokenStart : Nat
  tokenLine : Nat
  tokenColumn : Nat

/-- The fields of a parser. -/
structure ParserFields where
  tokens : Nat
  current : Nat
  file : Text
  depth : Nat

/-- All arrays of tokens by their addresses, and one scanner, one parser and one collection of
diagnostics. -/
structure Memory where
  arrays : List (List Token)
  scanner : ScannerFields
  parser : ParserFields
  diagnostics : Collected

namespace Memory

def array (m : Memory) (address : Nat) : List Token := m.arrays.getD address []

theorem set_array_self (m : Memory) (address : Nat) :
    m.arrays.set address (m.array address) = m.arrays := by
  by_cases h : address < m.arrays.length
  · simp [array, h]
  · exact List.set_eq_of_length_le (by omega)

def allocate (m : Memory) (tokens : List Token) : Memory :=
  { m with arrays := m.arrays ++ [tokens] }

def write (m : Memory) (address : Nat) (tokens : List Token) : Memory :=
  { m with arrays := m.arrays.set address tokens }

def report (m : Memory) (r : Report) : Memory :=
  { m with diagnostics := m.diagnostics.report r }

def tokens (m : Memory) : List Token := m.array m.parser.tokens

def nothing : Token := ⟨.eof, 0, 0, 1, 1, ⟨[], []⟩, none⟩

def peek (m : Memory) : Token := m.tokens.getD m.parser.current nothing

def peekAt (m : Memory) (distance : Nat) : Token :=
  m.tokens.getD (min (m.parser.current + distance) (m.tokens.length - 1)) nothing

def isAtEnd (m : Memory) : Bool := m.peek.kind == .eof

def deeper (m : Memory) : Memory :=
  { m with parser := { m.parser with depth := m.parser.depth + 1 } }

def shallower (m : Memory) : Memory :=
  { m with parser := { m.parser with depth := m.parser.depth - 1 } }

def remaining (m : Memory) : Nat :=
  Parser.weight ((m.tokens.drop m.parser.current).takeWhile (·.kind ≠ .eof))

/-- All arrays are as they were, perhaps with new ones, and `log` has been reported. -/
structure Adds (m m' : Memory) (log : Log) : Prop where
  arrays : m.arrays <+: m'.arrays
  diagnostics : m'.diagnostics = m.diagnostics.reports log

end Memory

/-- What a call of a method comes to. -/
inductive Answer (α : Type) where
  | value (a : α)
  /-- An error has been reported, and the callers give up as well. -/
  | abort
  | exhausted

def Machine (α : Type) : Type := Memory → Answer α × Memory

namespace Machine

variable {α β : Type}

instance : Monad Machine where
  pure a := fun m => (.value a, m)
  bind method next := fun m =>
    match method m with
    | (.value a, m) => next a m
    | (.abort, m) => (.abort, m)
    | (.exhausted, m) => (.exhausted, m)

def exhausted : Machine α := fun m => (.exhausted, m)

def check (p : Kind → Bool) : Machine Bool := fun m => (.value (p m.peek.kind), m)

def checkAt (distance : Nat) (k : Kind) : Machine Bool :=
  fun m => (.value ((m.peekAt distance).kind == k), m)

def isAtEnd : Machine Bool := fun m => (.value m.isAtEnd, m)

def peek : Machine Token := fun m => (.value m.peek, m)

def advance : Machine Token := fun m =>
  if m.isAtEnd then (.value m.peek, m)
  else (.value m.peek, { m with parser := { m.parser with current := m.parser.current + 1 } })

def take (p : Kind → Bool) : Machine (Option Token) := do
  if ← check p then some <$> advance else return none

def fail (t : Token) (message : Text) (code : Code) : Machine α := fun m =>
  (.abort, m.report ⟨m.parser.file, ⟨t.line, t.column⟩, message, code⟩)

def describeFound (t : Token) : Text :=
  if t.kind = .eof then SyntaxFault.found [] else SyntaxFault.found [t]

def errorAtCurrent (what : Expected) : Machine α := fun m =>
  fail m.peek (what.message ++ " " ++ describeFound m.peek) what.code m

def consume (k : Kind) (what : Expected) : Machine Token := do
  if ← check (· == k) then advance else errorAtCurrent what

/-- A `>`. Of a `>>`, the first half is given back, and the second half is written in its place. -/
def consumeClosingAngle (what : Expected) : Machine Token := fun m =>
  let t := m.peek
  if t.kind = .greater then advance m
  else if t.kind ≠ .greaterGreater then errorAtCurrent what m
  else (.value t.firstHalf,
    m.write m.parser.tokens (m.tokens.set m.parser.current t.secondHalf))

def nested (limit : Nat) (method : Machine α) : Machine α := fun m =>
  if limit ≤ m.parser.depth then errorAtCurrent .shallower m
  else
    let (answer, m') := method m.deeper
    (answer, m'.shallower)

def endMark (file : Text) (tokens : List Token) : List Token :=
  match tokens.getLast? with
  | none => [⟨.eof, 0, 0, 1, 1, ⟨file, []⟩, none⟩]
  | some t =>
    if t.kind = .eof then []
    else [⟨.eof, t.source.text.length, 0, t.line, t.column + t.length, t.source, none⟩]

/-- Copies the tokens at an address, without comments, and sets all fields of the parser. -/
def reset (file : Text) (tokens : Nat) (m : Memory) : Memory :=
  let kept := (m.array tokens).filter (·.kind ≠ .comment)
  { m.allocate (kept ++ endMark file kept) with parser := ⟨m.arrays.length, 0, file, 0⟩ }

/-- Repeats `step` until it gives none. A step that gives something and uses up nothing would go on
for ever. -/
def loop (step : α → Machine (Option α)) (a : α) : Machine α := fun m =>
  match step a m with
  | (.value none, m') => (.value a, m')
  | (.value (some b), m') => if m'.remaining < m.remaining then loop step b m' else (.exhausted, m')
  | (.abort, m') => (.abort, m')
  | (.exhausted, m') => (.exhausted, m')
termination_by m => m.remaining

def whileLoop (more : Machine Bool) (item : Machine α) : Machine (List α) :=
  loop (fun items => do
    if ← more then
      let a ← item
      return some (items ++ [a])
    else return none) []

def commaLoop (item : Machine α) : Machine (List α) := do
  let first ← item
  loop (fun items => do
    match ← take (· == .comma) with
    | none => return none
    | some _ =>
      let a ← item
      return some (items ++ [a])) [first]

def commaLoopUntil (closing : Kind) (item : Machine α) : Machine (List α) := do
  if ← check (· == closing) then return [] else commaLoop item

def isBefore (closing : Kind) : Machine Bool := do
  if ← check (· == closing) then return false
  else
    let ended ← isAtEnd
    return !ended

end Machine

end Instances

end Seanet
