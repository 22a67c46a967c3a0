import Seanet.Token.Kind

/-!
# Lexical shapes

What the text at the front of a source is, judged by its first units alone: a blank, a mark, a
comment, a string, a word, a number, or nothing the language knows. `Shape.atFront` gives the shape
and how many units belong to it; each shape takes as many units as it can.
-/

set_option autoImplicit false

namespace Seanet

inductive IntegerType where
  | int | uint | long | ulong
  deriving DecidableEq, Repr

inductive Radix where
  | decimal | hexadecimal
  deriving DecidableEq, Repr

inductive RealType where
  | float | double
  deriving DecidableEq, Repr

inductive Shape where
  | blank
  | mark (kind : Kind)
  | comment
  | openComment
  | string
  | openString
  | word
  | integer (radix : Radix) (type : IntegerType)
  | real (type : RealType)
  | stray
  deriving DecidableEq, Repr

structure Extent where
  shape : Shape
  size : Nat
  deriving DecidableEq, Repr

namespace Lexical

def isBlank (u : UInt16) : Bool := u == 0x20 || u == 0x09 || u == 0x0D || u == 0x0A

def isDigit (u : UInt16) : Bool := 0x30 ≤ u && u ≤ 0x39

def isHexDigit (u : UInt16) : Bool :=
  isDigit u || (0x61 ≤ u && u ≤ 0x66) || (0x41 ≤ u && u ≤ 0x46)

def isAlpha (u : UInt16) : Bool :=
  (0x61 ≤ u && u ≤ 0x7A) || (0x41 ≤ u && u ≤ 0x5A) || u == 0x5F

def isWordUnit (u : UInt16) : Bool := isAlpha u || isDigit u

def isEither (lower upper : Char) (u : UInt16) : Bool :=
  u == Text.unit lower || u == Text.unit upper

def run (p : UInt16 → Bool) (t : Text) : Nat := (t.takeWhile p).length

/-- The size of what follows `/*` up to and including the first `*/`. -/
def blockEnd? : Text → Option Nat
  | [] => none
  | [_] => none
  | u :: v :: r =>
    if u == Text.unit '*' && v == Text.unit '/' then some 2
    else (blockEnd? (v :: r)).map (· + 1)

def fraction : Text → Nat
  | [] => 0
  | u :: r => if u == Text.unit '.' && run isDigit r ≠ 0 then 1 + run isDigit r else 0

def sign : Text → Nat
  | [] => 0
  | u :: _ => if u == Text.unit '+' || u == Text.unit '-' then 1 else 0

def exponent : Text → Nat
  | [] => 0
  | u :: r =>
    let digits := run isDigit (r.drop (sign r))
    if isEither 'e' 'E' u && digits ≠ 0 then 1 + sign r + digits else 0

def integerSuffix : Text → IntegerType × Nat
  | [] => (.int, 0)
  | u :: r =>
    if isEither 'u' 'U' u then
      match r with
      | [] => (.uint, 1)
      | v :: _ => if isEither 'l' 'L' v then (.ulong, 2) else (.uint, 1)
    else if isEither 'l' 'L' u then (.long, 1)
    else (.int, 0)

def realSuffix : Text → RealType × Nat
  | [] => (.double, 0)
  | u :: _ => if isEither 'f' 'F' u then (.float, 1) else (.double, 0)

def integerOf (radix : Radix) (t : Text) (size : Nat) : Extent :=
  let (type, suffix) := integerSuffix (t.drop size)
  ⟨.integer radix type, size + suffix⟩

/-- The number at the front of a text that begins with a digit. Digits before the radix mark need
not be a single zero here: such a number is one lexeme, which has no value. -/
def number (t : Text) : Extent :=
  let whole := run isDigit t
  let marked := match t.drop whole with
    | [] => false
    | u :: _ => isEither 'x' 'X' u
  if marked then
    integerOf .hexadecimal t (whole + 1 + run isHexDigit (t.drop (whole + 1)))
  else
    let mantissa := whole + fraction (t.drop whole)
    let size := mantissa + exponent (t.drop mantissa)
    if size = whole then integerOf .decimal t whole
    else
      let (type, suffix) := realSuffix (t.drop size)
      ⟨.real type, size + suffix⟩

def afterSlash? : Text → Option Extent
  | [] => none
  | u :: r =>
    if u == Text.unit '/' then some ⟨.comment, 2 + run (· != Text.lineFeed) r⟩
    else if u == Text.unit '*' then
      match blockEnd? r with
      | some n => some ⟨.comment, 2 + n⟩
      | none => some ⟨.openComment, 2 + r.length⟩
    else none

def stringOf (r : Text) : Extent :=
  let inside := run (· != Text.unit '"') r
  if inside < r.length then ⟨.string, inside + 2⟩ else ⟨.openString, inside + 1⟩

/-- The longest mark that a text begins with. -/
def mark? (t : Text) : Option Extent :=
  (Kind.markTexts.find? fun m => m.1.isPrefixOf t).map fun m => ⟨.mark m.2, m.1.length⟩

/-- A character that begins nothing; a pair of surrogates stays together. -/
def strayOf (u : UInt16) (r : Text) : Extent :=
  ⟨.stray, if Text.isHigh u && !r.isEmpty then 2 else 1⟩

end Lexical

open Lexical in
def Shape.atFront (u : UInt16) (r : Text) : Extent :=
  if isBlank u then ⟨.blank, 1⟩
  else if u == Text.unit '"' then stringOf r
  else if isDigit u then number (u :: r)
  else if isAlpha u then ⟨.word, 1 + run isWordUnit r⟩
  else
    match (if u == Text.unit '/' then afterSlash? r else none) with
    | some e => e
    | none => (mark? (u :: r)).getD (strayOf u r)

end Seanet
