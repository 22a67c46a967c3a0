import Seanet.Lexical.Reading
import Seanet.Yaml.Outline

set_option autoImplicit false

namespace Seanet

namespace Yaml

open Lexical (isDigit isHexDigit numeral)

structure Fault where
  first : Nat
  last : Nat
  message : Text
  deriving DecidableEq, Repr

namespace Fault

def point (offset : Nat) (message : Text) : Fault := ⟨offset, offset + 1, message⟩

def of (l : Placed) (message : Text) : Fault := ⟨l.offset, l.offset + l.source.length, message⟩

end Fault

/-- A number, exactly: `digits * 10 ^ exponent` with no factor ten left in the digits. -/
inductive Number where
  | finite (digits : Int) (exponent : Int)
  | infinite (negative : Bool)
  | undefined
  deriving DecidableEq, Repr

inductive Scalar where
  | null
  | bool (value : Bool)
  | number (value : Number)
  | text (value : Text)
  deriving DecidableEq, Repr

def trimLeft (t : Text) : Text := t.dropWhile isSpaceOrTab

def trimRight (t : Text) : Text := (t.reverse.dropWhile isSpaceOrTab).reverse

def dropReturn (t : Text) : Text := if t.getLast? == some 0x0D then t.dropLast else t

/-- Joins lines: one line end is a blank, and of several all but the first remain. -/
def foldInner : Text → Text → List Text → Text
  | folded, separator, [] => folded ++ separator
  | folded, separator, [last] => folded ++ separator ++ trimLeft last
  | folded, separator, line :: rest =>
    let line := trimLeft (trimRight (dropReturn line))
    if line.isEmpty then
      if separator == [Text.lineFeed] then foldInner (folded ++ separator) separator rest
      else foldInner folded [Text.lineFeed] rest
    else foldInner (folded ++ separator ++ line) [0x20] rest

def foldLines (t : Text) : Text :=
  match Text.splitOn Text.lineFeed t with
  | [] | [_] => t
  | first :: rest => foldInner (trimRight (dropReturn first)) [0x20] rest

def badStart? : Text → Option Text
  | [] => none
  | u :: _ =>
    if u == 0x09 then some "a tab character"
    else if u == Text.unit ',' then some "flow indicator character ,"
    else if u == Text.unit '%' then some "directive indicator character %"
    else if u == Text.unit '|' || u == Text.unit '>' then some ("block scalar indicator " ++ [u])
    else if u == Text.unit '@' || u == 0x60 then some ("reserved character " ++ [u])
    else none

def plainText (offset : Nat) (source : Text) : Text × List Fault :=
  let faults := match badStart? source with
    | none => []
    | some bad => [Fault.point offset ("Plain value cannot start with " ++ bad)]
  (foldLines source, faults)

def singleQuotes : Text → Text
  | 0x27 :: 0x27 :: r => 0x27 :: singleQuotes r
  | u :: r => u :: singleQuotes r
  | [] => []

def closed (quote : Char) (offset : Nat) (source : Text) : List Fault :=
  if source.length = 1 || source.getLast? != some (Text.unit quote) then
    [Fault.point (offset + source.length) ("Missing closing " ++ [Text.unit quote] ++ "quote")]
  else []

def singleQuotedText (offset : Nat) (source : Text) : Text × List Fault :=
  (singleQuotes (foldLines (source.drop 1).dropLast), closed '\'' offset source)

def escapeOf (u : UInt16) : Option UInt16 :=
  [(Text.unit '0', 0x00), (Text.unit 'a', 0x07), (Text.unit 'b', 0x08), (Text.unit 'e', 0x1B),
    (Text.unit 'f', 0x0C), (Text.unit 'n', 0x0A), (Text.unit 'r', 0x0D), (Text.unit 't', 0x09),
    (Text.unit 'v', 0x0B), (Text.unit 'N', 0x85), (Text.unit '_', 0xA0), (Text.unit 'L', 0x2028),
    (Text.unit 'P', 0x2029), (0x20, 0x20), (0x22, 0x22), (Text.unit '/', Text.unit '/'),
    (0x5C, 0x5C), (0x09, 0x09)].lookup u

def escapeWidth (u : UInt16) : Option Nat :=
  [(Text.unit 'x', 2), (Text.unit 'u', 4), (Text.unit 'U', 8)].lookup u

def unitsOfCode (n : Nat) : Text :=
  if n < 0x10000 then [n.toUInt16] else Text.unitsOf (Char.ofNat n)

def coded? (width : Nat) (digits : Text) : Option Text :=
  if digits.length = width && digits.all isHexDigit then
    let n := numeral 16 digits
    if n ≤ 0x10FFFF then some (unitsOfCode n) else none
  else none

def foldBreaks : Text → Text → Text × Text
  | folded, [] => (folded, [])
  | folded, u :: r =>
    if u == 0x0A then foldBreaks (folded ++ [u]) r
    else if isSpaceOrTab u || (u == 0x0D && r.head? == some 0x0A) then foldBreaks folded r
    else (folded, u :: r)

/-- The inside of a double-quoted scalar; `rest` begins at `offset`, and its last unit is the
closing quote. Each step takes at least one unit, so `fuel` may be the length of `rest`. -/
def doubleQuotes : Nat → Nat → Text → Text × List Fault
  | 0, _, _ => ([], [])
  | fuel + 1, offset, rest =>
    let goOn (before : Text) (faults : List Fault) (after : Text) : Text × List Fault :=
      let (t, fs) := doubleQuotes fuel (offset + rest.length - after.length) after
      (before ++ t, faults ++ fs)
    match rest with
    | [] | [_] => ([], [])
    | u :: v :: r =>
      if u == 0x0D && v == 0x0A then goOn [] [] (v :: r)
      else if u == 0x0A then
        let (folded, after) := foldBreaks [] (v :: r)
        goOn (if folded.isEmpty then [0x20] else folded) [] after
      else if u == 0x5C then
        match escapeOf v with
        | some w => goOn [w] [] r
        | none =>
          if v == 0x0A then goOn [] [] (trimLeft r)
          else if v == 0x0D && r.head? == some 0x0A then goOn [] [] (trimLeft (r.drop 1))
          else
            let raw (n : Nat) : Fault :=
              Fault.point offset ("Invalid escape sequence " ++ rest.take n)
            match escapeWidth v with
            | some width =>
              match coded? width (r.take width) with
              | some t => goOn t [] (r.drop width)
              | none => goOn [] [raw (width + 2)] (r.drop width)
            | none => goOn [] [raw 2] r
      else if isSpaceOrTab u then
        let blanks := rest.takeWhile isSpaceOrTab
        let after := rest.drop blanks.length
        let atBreak := after.head? == some 0x0A ||
          (after.head? == some 0x0D && (after.drop 1).head? == some 0x0A)
        goOn (if atBreak then [] else blanks) [] after
      else goOn [u] [] (v :: r)

def doubleQuotedText (offset : Nat) (source : Text) : Text × List Fault :=
  let inside := source.drop 1
  let (t, faults) := doubleQuotes inside.length (offset + 1) inside
  (t, faults ++ closed '"' offset source)

structure BlockHeader where
  folded : Bool
  indent : Nat
  chomp : Option UInt16
  size : Nat

def headerFlags : Nat → Text → Nat × Option UInt16 × Option Nat
  | _, [] => (0, none, none)
  | i, letters =>
    (letters.zipIdx i).foldl (fun (indent, chomp, bad) (u, i) =>
      if chomp.isNone && (u == 0x2D || u == 0x2B) then (indent, some u, bad)
      else if indent == 0 && 0x31 ≤ u && u ≤ 0x39 then (u.toNat - 0x30, chomp, bad)
      else (indent, chomp, bad.or (some i))) (0, none, none)

def blockHeaderOf (offset : Nat) (props : List Placed) : BlockHeader × List Fault :=
  let source := match props with
    | [] => []
    | p :: _ => p.source
  let (indent, chomp, bad) := headerFlags 1 (source.drop 1)
  let faults := match bad with
    | none => []
    | some i =>
      [Fault.point (offset + i) ("Block scalar header includes extra characters: " ++ source)]
  let (faults, _) := (props.drop 1).foldl (fun (faults, spaced) p =>
    match p.mark with
    | .space => (faults, true)
    | .comment =>
      (if spaced then faults else faults ++ [Fault.of p
        "Comments must be separated from other tokens by white space characters"], spaced)
    | .unknown => (faults ++ [Fault.of p ("Not a YAML token: " ++ p.source)], spaced)
    | _ => (faults, spaced)) (faults, false)
  let size := (props.flatMap (·.source)).length
  (⟨source.head? == some (Text.unit '>'), indent, chomp, size⟩, faults)

def blockLine (t : Text) : Nat × Text :=
  let n := (t.takeWhile (· == 0x20)).length
  (n, t.drop n)

def isBlankLine (content : Text) : Bool := content.isEmpty || content == [0x0D]

/-- The indentation that is removed from a block scalar: that of its first line with content, if the
header does not ask for another. Blank lines before it must not be indented further. -/
def trimIndent (header : BlockHeader) (atRoot : Bool) :
    Nat → Nat → List (Nat × Text) → Nat × Nat × List Fault
  | trim, _, [] => (trim, 0, [])
  | trim, offset, (indent, content) :: rest =>
    if isBlankLine content then
      let trim := if header.indent = 0 && trim < indent then indent else trim
      let (t, start, faults) :=
        trimIndent header atRoot trim (offset + indent + content.length + 1) rest
      (t, start + 1, faults)
    else
      let short := if indent < trim then
          [Fault.point (offset + indent) ("Block scalars with more-indented leading empty lines " ++
            "must use an explicit indentation indicator" : Text)]
        else []
      let trim := if header.indent = 0 then indent else trim
      let flat := if trim = 0 && !atRoot then
          [Fault.point offset "Block scalar values in collections must be indented"]
        else []
      (trim, 0, short ++ flat)

def blockText (folded : Bool) (trim : Nat) : Text → Text → Bool → List (Nat × Text) → Text
  | value, _, _, [] => value
  | value, separator, deeper, (indent, content) :: rest =>
    let content := dropReturn content
    let kept : Text := List.replicate (indent - trim) 0x20
    let line := kept ++ content
    if !folded then blockText folded trim (value ++ separator ++ line) [0x0A] deeper rest
    else if trim < indent || content.head? == some 0x09 then
      let separator : Text := if separator == [0x20] then [0x0A]
        else if !deeper && separator == [0x0A] then [0x0A, 0x0A]
        else separator
      blockText folded trim (value ++ separator ++ line) [0x0A] true rest
    else if content.isEmpty then
      if separator == [0x0A] then blockText folded trim (value ++ [0x0A]) separator deeper rest
      else blockText folded trim value [0x0A] deeper rest
    else blockText folded trim (value ++ separator ++ content) [0x20] false rest

def contentLines (lines : List (Nat × Text)) : Nat :=
  lines.length - (lines.reverse.takeWhile fun l => isBlankLine l.2).length

def blockScalarText (offset indent : Nat) (props : List Placed) (source : Text) (atRoot : Bool) :
    Text × Nat × List Fault :=
  let (header, faults) := blockHeaderOf offset props
  let stop := offset + header.size + source.length
  let lines := if source.isEmpty then [] else (Text.splitOn Text.lineFeed source).map blockLine
  let count := contentLines lines
  if count = 0 then
    let value : Text := if header.chomp == some 0x2B && !lines.isEmpty then
        List.replicate (max 1 (lines.length - 1)) 0x0A
      else []
    (value, stop, faults)
  else
    let (trim, first, more) :=
      trimIndent header atRoot (indent + header.indent) (offset + header.size) (lines.take count)
    let deeper := ((lines.zipIdx).filter fun (l, i) => count ≤ i && trim < l.1).head?
    let count := match deeper with
      | some _ => (lines.length - (lines.reverse.takeWhile fun l => l.1 ≤ trim).length)
      | none => count
    let leading := (lines.take first).flatMap fun l => List.replicate (l.1 - trim) 0x20 ++ [0x0A]
    let value := blockText header.folded trim leading [] false ((lines.take count).drop first)
    let value := match header.chomp with
      | some 0x2D => value
      | some _ =>
        let value := value ++
          (lines.drop count).flatMap fun l => 0x0A :: List.replicate (l.1 - trim) 0x20
        if value.getLast? == some 0x0A then value else value ++ [0x0A]
      | none => value ++ [0x0A]
    (value, stop, faults ++ more)

def isOneOf (words : List String) (t : Text) : Bool := words.any fun (w : String) => (w : Text) == t

/-- The number `digits * 10 ^ exponent`, in its one form. Each step takes a factor ten out of the
digits, so there are no more steps than digits. -/
def normalized : Nat → Int → Int → Number
  | 0, digits, exponent => .finite digits exponent
  | n + 1, digits, exponent =>
    if digits = 0 then .finite 0 0
    else if digits % 10 = 0 then normalized n (digits / 10) (exponent + 1)
    else .finite digits exponent

def withSign (t : Text) : Bool × Text :=
  match t with
  | 0x2D :: r => (true, r)
  | 0x2B :: r => (false, r)
  | r => (false, r)

def decimal? (t : Text) : Option Number :=
  let (negative, body) := withSign t
  let whole := body.takeWhile isDigit
  let rest := body.drop whole.length
  let (point, places) : Bool × Text := match rest with
    | 0x2E :: r => (true, r.takeWhile isDigit)
    | _ => (false, [])
  let rest := if point then rest.drop (1 + places.length) else rest
  let power? : Option Int := match rest with
    | [] => some 0
    | u :: r =>
      if u == Text.unit 'e' || u == Text.unit 'E' then
        let (down, digits) := withSign r
        if !digits.isEmpty && digits.all isDigit then
          some (if down then -(numeral 10 digits : Int) else numeral 10 digits)
        else none
      else none
  if whole.isEmpty && places.isEmpty then none
  else
    power?.map fun power =>
      let n : Int := numeral 10 (whole ++ places)
      normalized (whole.length + places.length) (if negative then -n else n)
        (power - places.length)

def coreScalar (t : Text) : Scalar :=
  if t.isEmpty || isOneOf ["~", "null", "Null", "NULL"] t then .null
  else if isOneOf ["true", "True", "TRUE"] t then .bool true
  else if isOneOf ["false", "False", "FALSE"] t then .bool false
  else if isOneOf [".nan", ".NaN", ".NAN"] t then .number .undefined
  else if isOneOf [".inf", ".Inf", ".INF"] (withSign t).2 then .number (.infinite (withSign t).1)
  else
    let digits := t.drop 2
    if t.take 2 == Text.ofString "0o" && !digits.isEmpty &&
        digits.all fun u => 0x30 ≤ u && u ≤ 0x37 then
      .number (normalized t.length (numeral 8 digits) 0)
    else if t.take 2 == Text.ofString "0x" && !digits.isEmpty &&
        digits.all isHexDigit then
      .number (normalized (2 * t.length) (numeral 16 digits) 0)
    else
      match decimal? t with
      | some n => .number n
      | none => .text t

end Yaml

end Seanet
