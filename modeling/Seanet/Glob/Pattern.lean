import Seanet.File.Path

set_option autoImplicit false

namespace Seanet

namespace Glob

/-- What stands before the brace that closes the current one, cut at its commas, and what stands
behind it; none when it is not closed. -/
def closeBrace : Nat → Text → Text → List Text → Option (List Text × Text)
  | _, _, [], _ => none
  | depth, part, u :: rest, parts =>
    if u == 0x7D && depth == 0 then some (parts ++ [part], rest)
    else if u == 0x7D then closeBrace (depth - 1) (part ++ [u]) rest parts
    else if u == 0x7B then closeBrace (depth + 1) (part ++ [u]) rest parts
    else if u == Text.unit ',' && depth == 0 then closeBrace depth [] rest (parts ++ [part])
    else closeBrace depth (part ++ [u]) rest parts

def unitsBetween (a b : UInt16) : List Text :=
  let up := (List.range (b.toNat + 1 - a.toNat)).map fun i => [(a.toNat + i).toUInt16]
  if a ≤ b then up
  else ((List.range (a.toNat + 1 - b.toNat)).map fun i => [(b.toNat + i).toUInt16]).reverse

def natOf? (t : Text) : Option Nat :=
  if t.isEmpty || t.any (fun u => u < 0x30 || 0x39 < u) then none
  else some (t.foldl (fun n u => n * 10 + (u.toNat - 0x30)) 0)

def rangeOf? (t : Text) : Option (List Text) :=
  match Text.splitOn (Text.unit '.') t with
  | [a, [], b] =>
    match natOf? a, natOf? b with
    | some m, some n =>
      let up := (List.range (max m n + 1 - min m n)).map fun i => Text.ofNat (min m n + i)
      some (if m ≤ n then up else up.reverse)
    | _, _ =>
      match a, b with
      | [u], [v] => some (unitsBetween u v)
      | _, _ => none
  | _ => none

/-- The alternatives of a pattern. Every step removes a brace or passes over one, so `fuel` may be
the length of the pattern. -/
def expandBraces : Nat → Text → List Text
  | 0, t => [t]
  | fuel + 1, t =>
    match t.dropWhile (· != 0x7B) with
    | [] => [t]
    | brace :: rest =>
      let before := t.takeWhile (· != 0x7B)
      let kept := (expandBraces fuel rest).map fun r => before ++ brace :: r
      match closeBrace 0 [] rest [] with
      | none => kept
      | some (parts, behind) =>
        let options := match parts with
          | [one] => rangeOf? one
          | _ => some (parts.flatMap (expandBraces fuel))
        match options with
        | none => kept
        | some options =>
          options.flatMap fun o => (expandBraces fuel behind).map fun b => before ++ o ++ b

/-- Slashes in a row are one, but not where the pattern begins. -/
def singleSlashes : Text → Text
  | [] => []
  | u :: rest =>
    let rec go : Bool → Text → Text
      | _, [] => []
      | afterSlash, u :: rest =>
        if u == Path.slash && afterSlash then go true rest
        else u :: go (u == Path.slash) rest
    u :: go false rest

def alternatives (t : Text) : List Text :=
  ((expandBraces t.length t).filter (!·.isEmpty)).map singleSlashes

inductive Atom where
  | unit (u : UInt16)
  | any
  | star
  | among (negated : Bool) (ranges : List (UInt16 × UInt16)) (spelled : Option Text)
  deriving DecidableEq, Repr

inductive Segment where
  | anyNames
  | name (atoms : List Atom)
  deriving DecidableEq, Repr

def classRanges : Text → List (UInt16 × UInt16)
  | [] => []
  | a :: 0x2D :: b :: rest => (a, b) :: classRanges rest
  | a :: rest => (a, a) :: classRanges rest

/-- The content of a class after its opening bracket. It is not empty: a closing bracket that comes
first belongs to it. -/
def classContent? (t : Text) : Option Text :=
  match t with
  | [] => none
  | first :: rest =>
    let inside := rest.takeWhile (· != 0x5D)
    if inside.length < rest.length then some (first :: inside) else none

/-- Units with a meaning of their own in a class; without any, the spelled class matches too. -/
def isSpecialInClass (u : UInt16) : Bool := (Text.ofString "-*+?.^$\x7b(|)[]\x7d").contains u

def classAtom (content : Text) : Atom :=
  match content with
  | 0x21 :: rest => .among true (classRanges rest) none
  | 0x5E :: rest => .among true (classRanges rest) none
  | _ =>
    .among false (classRanges content)
      (if content.any isSpecialInClass then none else some (0x5B :: content ++ [0x5D]))

def atoms : Text → List Atom
  | [] => []
  | u :: rest =>
    if u == Text.unit '*' then .star :: atoms (rest.dropWhile (· == Text.unit '*'))
    else if u == Text.unit '?' then .any :: atoms rest
    else if u == 0x5C then
      match rest with
      | [] => [.unit u]
      | v :: rest => .unit v :: atoms rest
    else if u == 0x5B then
      match classContent? rest with
      | some content => classAtom content :: atoms (rest.drop (content.length + 1))
      | none => .unit u :: atoms rest
    else .unit u :: atoms rest
termination_by t => t.length
decreasing_by
  · exact Nat.lt_succ_of_le (List.dropWhile_sublist _).length_le
  all_goals simp only [List.length_cons, List.length_drop]; omega

/-- The segments of one name in a pattern. Two stars in front of something else stand for any number
of names and the beginning of one more. -/
def segmentsOf (t : Text) : List Segment :=
  match t with
  | 0x2A :: 0x2A :: rest =>
    let rest := rest.dropWhile (· == 0x2A)
    if rest.isEmpty then [.anyNames] else [.anyNames, .name (.star :: atoms rest)]
  | _ => [.name (atoms t)]

def withoutDot (t : Text) : Text :=
  match t with
  | 0x2E :: 0x2F :: rest => rest
  | t => t

def parse (t : Text) : List Segment := (Path.steps (withoutDot t)).flatMap segmentsOf

/-- Whether a wildcard may stand for a name, as far as dots are concerned. -/
def admits (dots : Bool) (name : Text) : Bool :=
  if dots then name != Path.dot && name != Path.dotDot else name.head? != some (Text.unit '.')

def matchAtoms : List Atom → Text → Bool
  | [], t => t.isEmpty
  | .unit u :: rest, t =>
    match t with
    | [] => false
    | v :: t => u == v && matchAtoms rest t
  | .any :: rest, t =>
    match t with
    | [] => false
    | _ :: t => matchAtoms rest t
  | .among negated ranges spelled :: rest, t =>
    (match t with
      | [] => false
      | v :: t => (ranges.any fun (a, b) => a ≤ v && v ≤ b) != negated && matchAtoms rest t) ||
    (match spelled with
      | none => false
      | some s => s.isPrefixOf t && matchAtoms rest (t.drop s.length))
  | .star :: rest, t =>
    matchAtoms rest t ||
      match t with
      | [] => false
      | _ :: t => matchAtoms (.star :: rest) t
termination_by atoms t => (atoms.length, t.length)

def matchName (dots : Bool) (atoms : List Atom) (name : Text) : Bool :=
  (match atoms with
    | .star :: _ | .any :: _ => admits dots name
    | _ => true) && matchAtoms atoms name

def matchNames (dots : Bool) : List Segment → List Text → Bool
  | [], names => names.isEmpty
  | .anyNames :: rest, names =>
    matchNames dots rest names ||
      match names with
      | [] => false
      | n :: names => admits dots n && matchNames dots (.anyNames :: rest) names
  | .name atoms :: rest, names =>
    match names with
    | [] => false
    | n :: names => matchName dots atoms n && matchNames dots rest names
termination_by segments names => (segments.length, names.length)

def isNegative (t : Text) : Bool :=
  t.head? == some (Text.unit '!') && (t.drop 1).head? != some (Text.unit '(')

def withoutBang (t : Text) : Text := if isNegative t then t.drop 1 else t

def hasClass (t : Text) : Bool :=
  match t.dropWhile (· != 0x5B) with
  | [] => false
  | _ :: rest => rest.contains 0x5D

def isStatic (t : Text) : Bool :=
  !(t.any fun u => u == Text.unit '*' || u == Text.unit '?' || u == 0x5C) && !hasClass t &&
    t.head? != some (Text.unit '!')

def baseOf (t : Text) : List Text :=
  ((Path.steps t).dropLast.takeWhile isStatic).filter fun s => !s.isEmpty && s != Path.dot

def isOutside (t : Text) : Bool :=
  Path.dotDot.isPrefixOf t || (Text.ofString "./..").isPrefixOf t

def prunes (t : Text) : Bool :=
  (Text.ofString "/**").isSuffixOf t || isStatic (Path.baseName t)

end Glob

end Seanet
