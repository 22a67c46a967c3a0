import Seanet.Text.Basic

set_option autoImplicit false

namespace Seanet

abbrev Path := List Text

namespace Path

def slash : UInt16 := Text.unit '/'

def dot : Text := "."

def dotDot : Text := ".."

def render (p : Path) : Text := slash :: Text.join [slash] p

def isAbsolute (t : Text) : Bool := t.head? == some slash

def steps (t : Text) : List Text := Text.splitOn slash t

def go (p : Path) (step : Text) : Path :=
  if step.isEmpty || step == dot then p
  else if step == dotDot then p.dropLast
  else p ++ [step]

/-- The path that a text means from a directory, by names alone. -/
def resolve (directory : Path) (t : Text) : Path :=
  (steps t).foldl go (if isAbsolute t then [] else directory)

def baseName (t : Text) : Text :=
  let t := (t.reverse.dropWhile (· == slash)).reverse
  (t.reverse.takeWhile (· != slash)).reverse

/-- The part of a name before its last dot. A dot at the beginning of the name does not count. -/
def stem (name : Text) : Text :=
  let extension := (name.reverse.takeWhile (· != Text.unit '.')).length + 1
  if extension < name.length then name.take (name.length - extension) else name

def forward (t : Text) : Text := t.map fun u => if u = Text.unit '\\' then slash else u

def lineage (p : Path) : List Path := (List.range p.length).map fun n => p.take (n + 1)

end Path

end Seanet
