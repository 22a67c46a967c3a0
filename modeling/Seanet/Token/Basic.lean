import Seanet.Number.Rounding
import Seanet.Token.Kind

set_option autoImplicit false

namespace Seanet

structure Source where
  name : Text
  text : Text
  deriving DecidableEq, Repr

inductive Value where
  | string (text : Text)
  | bool (value : Bool)
  | word (value : Int)
  | long (value : Int)
  | real (value : Dyadic)
  deriving DecidableEq, Repr

structure Token where
  kind : Kind
  /-- Offset of the first unit of the lexeme. -/
  start : Nat
  length : Nat
  line : Nat
  column : Nat
  source : Source
  value : Option Value
  deriving DecidableEq, Repr

namespace Token

def lexeme (t : Token) : Text := t.source.text.slice t.start t.length

/-- The second `>` of a `>>`, as a token of its own. -/
def secondHalf (t : Token) : Token :=
  { t with kind := .greater, start := t.start + 1, length := 1, column := t.column + 1 }

/-- A `true` that is not written, at the place of `t`. -/
def unwrittenTrue (t : Token) : Token :=
  { t with kind := .trueWord, length := 0, value := some (.bool true) }

def unwrittenVoid (t : Token) : Token :=
  { t with kind := .void, length := 0, value := none }

end Token

end Seanet
