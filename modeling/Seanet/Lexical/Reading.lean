import Seanet.Diagnostic
import Seanet.Lexical.Shape
import Seanet.Token.Basic

set_option autoImplicit false

namespace Seanet

inductive LexicalFault where
  | unexpected (character : Text)
  | openString
  | openComment
  | malformed (type : String) (lexeme : Text)
  | outOfRange (type : String) (lexeme : Text)
  deriving DecidableEq, Repr

namespace LexicalFault

def code : LexicalFault → Code
  | unexpected _ => .unexpectedCharacter
  | openString => .unterminatedString
  | openComment => .unterminatedComment
  | malformed _ _ | outOfRange _ _ => .invalidNumber

def message : LexicalFault → Text
  | unexpected c => "Unexpected character \"" ++ c ++ "\"."
  | openString => "Unterminated string. Expected '\"', but reached end of file."
  | openComment => "Unterminated multi-line comment. Expected \"*/\", but reached end of file."
  | malformed type lexeme => "Failed to parse " ++ type ++ " \"" ++ lexeme ++ "\"."
  | outOfRange type lexeme =>
    "Failed to parse " ++ type ++ " \"" ++ lexeme ++ "\". Value is out of range."

end LexicalFault

inductive Reading where
  | blank
  | token (kind : Kind) (value : Option Value)
  | fault (cause : LexicalFault)
  deriving DecidableEq, Repr

namespace IntegerType

def name : IntegerType → String
  | int => "int"
  | uint => "uint"
  | long => "long"
  | ulong => "ulong"

def literal : IntegerType → Kind
  | int => .intLiteral
  | uint => .uintLiteral
  | long => .longLiteral
  | ulong => .ulongLiteral

def bits : IntegerType → Nat
  | int | uint => 32
  | long | ulong => 64

def signed : IntegerType → Bool
  | int | long => true
  | uint | ulong => false

def suffixSize : IntegerType → Nat
  | int => 0
  | uint | long => 1
  | ulong => 2

/-- The largest number that a literal may write. A hexadecimal one writes the bits of its type. -/
def limit (type : IntegerType) : Radix → Nat
  | .hexadecimal => Nat.pow 2 type.bits - 1
  | .decimal => if type.signed then Nat.pow 2 (type.bits - 1) - 1 else Nat.pow 2 type.bits - 1

def interpret (type : IntegerType) (n : Nat) : Int :=
  if type.signed ∧ Nat.pow 2 (type.bits - 1) ≤ n then (n : Int) - (Nat.pow 2 type.bits : Nat) else n

def value (type : IntegerType) (v : Int) : Value :=
  match type with
  | int | uint => .word v
  | long | ulong => .long v

end IntegerType

namespace RealType

def name : RealType → String
  | float => "float"
  | double => "double"

def literal : RealType → Kind
  | float => .floatLiteral
  | double => .doubleLiteral

def suffixSize : RealType → Nat
  | float => 1
  | double => 0

def value? (type : RealType) (d : Decimal) : Option Dyadic :=
  match type with
  | float => d.toSingle?
  | double => d.toDouble?

end RealType

namespace Lexical

def digitValue (u : UInt16) : Nat :=
  if isDigit u then u.toNat - 0x30
  else if 0x61 ≤ u then u.toNat - 0x61 + 10
  else u.toNat - 0x41 + 10

def numeral (base : Nat) (digits : Text) : Nat :=
  digits.foldl (fun n u => n * base + digitValue u) 0

/-- The digits of an integer, its suffix dropped, with the radix mark checked: it comes right after
a single leading zero and has a digit behind it. -/
def integerDigits? (radix : Radix) (body : Text) : Option Nat :=
  match radix, body with
  | .decimal, digits => some (numeral 10 digits)
  | .hexadecimal, z :: x :: digits =>
    if z == Text.unit '0' && isEither 'x' 'X' x && !digits.isEmpty && digits.all isHexDigit then
      some (numeral 16 digits)
    else none
  | .hexadecimal, _ => none

def readInteger (radix : Radix) (type : IntegerType) (lexeme : Text) : Reading :=
  match integerDigits? radix (lexeme.take (lexeme.length - type.suffixSize)) with
  | none => .fault (.malformed type.name lexeme)
  | some n =>
    if type.limit radix < n then .fault (.outOfRange type.name lexeme)
    else .token type.literal (some (type.value (type.interpret n)))

def decimalOf (body : Text) : Decimal :=
  let whole := body.takeWhile isDigit
  let rest := body.drop whole.length
  let point := (rest.take (fraction rest)).drop 1
  let rest := rest.drop (fraction rest)
  let power := (rest.take (exponent rest)).drop 1
  let size := numeral 10 (power.drop (sign power))
  let e : Int := if power.head? == some (Text.unit '-') then -(size : Int) else size
  let digits := whole ++ point
  ⟨numeral 10 digits, digits.length, e - point.length⟩

def readReal (type : RealType) (lexeme : Text) : Reading :=
  match type.value? (decimalOf (lexeme.take (lexeme.length - type.suffixSize))) with
  | none => .fault (.outOfRange type.name lexeme)
  | some v => .token type.literal (some (.real v))

def readWord (lexeme : Text) : Reading :=
  match Kind.ofKeyword? lexeme with
  | some .trueWord => .token .trueWord (some (.bool true))
  | some .falseWord => .token .falseWord (some (.bool false))
  | some k => .token k none
  | none => .token .identifier none

end Lexical

open Lexical in
def Shape.read (shape : Shape) (lexeme : Text) : Reading :=
  match shape with
  | .blank => .blank
  | .mark k => .token k none
  | .comment => .token .comment none
  | .openComment => .fault .openComment
  | .string => .token .stringLiteral (some (.string (lexeme.slice 1 (lexeme.length - 2))))
  | .openString => .fault .openString
  | .word => readWord lexeme
  | .integer radix type => readInteger radix type lexeme
  | .real type => readReal type lexeme
  | .stray => .fault (.unexpected lexeme)

end Seanet
