import Seanet.Text.Basic

set_option autoImplicit false

namespace Seanet

inductive Json where
  | string (text : Text)
  | number (value : Int)
  | list (items : List Json)
  | object (members : List (String × Json))
  deriving Repr

namespace Json

def hexDigit (n : Nat) : UInt16 := Text.unit (Nat.digitChar (n % 16))

def numbered (u : UInt16) : Text :=
  let n := u.toNat
  "\\u" ++ [hexDigit (n / 4096), hexDigit (n / 256), hexDigit (n / 16), hexDigit n]

def escapeUnit (u : UInt16) : Text :=
  if u == Text.unit '"' then "\\\""
  else if u == Text.unit '\\' then "\\\\"
  else if u == 0x08 then "\\b"
  else if u == 0x0C then "\\f"
  else if u == 0x0A then "\\n"
  else if u == 0x0D then "\\r"
  else if u == 0x09 then "\\t"
  else if u < 0x20 || Text.isHigh u || Text.isLow u then numbered u
  else [u]

/-- A text inside quotes: quotes, backslashes, control characters and lone surrogates are
escaped, and nothing else. -/
def escape : Text → Text
  | [] => []
  | [u] => escapeUnit u
  | u :: v :: r =>
    if Text.isHigh u && Text.isLow v then u :: v :: escape r
    else escapeUnit u ++ escape (v :: r)

def quote (t : Text) : Text := "\"" ++ escape t ++ "\""

mutual

def compact : Json → Text
  | .string t => quote t
  | .number n => Text.ofInt n
  | .list items => "[" ++ Text.join "," (compactItems items) ++ "]"
  | .object members => "\x7b" ++ Text.join "," (compactMembers members) ++ "\x7d"

def compactItems : List Json → List Text
  | [] => []
  | v :: rest => compact v :: compactItems rest

def compactMembers : List (String × Json) → List Text
  | [] => []
  | (key, v) :: rest => (quote key ++ ":" ++ compact v) :: compactMembers rest

end

def newLine (depth : Nat) : Text := Text.lineFeed :: List.replicate (2 * depth) 0x20

def separator (depth : Nat) : Text := "," ++ newLine depth

/-- Items on lines of their own between brackets; no items, no lines. -/
def framed (left right : Text) (depth : Nat) (items : List Text) : Text :=
  if items.isEmpty then left ++ right
  else
    left ++ newLine (depth + 1) ++ Text.join (separator (depth + 1)) items ++ newLine depth ++ right

mutual

def indented (depth : Nat) : Json → Text
  | .string t => quote t
  | .number n => Text.ofInt n
  | .list items => framed "[" "]" depth (indentedItems (depth + 1) items)
  | .object members => framed "\x7b" "\x7d" depth (indentedMembers (depth + 1) members)

def indentedItems (depth : Nat) : List Json → List Text
  | [] => []
  | v :: rest => indented depth v :: indentedItems depth rest

def indentedMembers (depth : Nat) : List (String × Json) → List Text
  | [] => []
  | (key, v) :: rest => (quote key ++ ": " ++ indented depth v) :: indentedMembers depth rest

end

def pretty (v : Json) : Text := indented 0 v

end Json

end Seanet
