import Seanet.File.FileSystem
import Seanet.Glob.Pattern

/-!
# Searching for files

The files below a directory that match one of some patterns and none of others. A directory that an
excluding pattern names is passed over with all it holds, unless the search starts in it or the
file is asked for by its full name. A backslash in a name is taken for a slash where a search starts
and in the paths that it gives, so such a path may lead nowhere.
-/

set_option autoImplicit false

namespace Seanet

namespace Glob

structure Exclusion where
  text : Text
  segments : List Segment

def Exclusion.of (t : Text) : Exclusion := ⟨t, parse t⟩

def excluded (exclusions : List Exclusion) (names : List Text) : Bool :=
  exclusions.any fun e => matchNames true e.segments names

def pruned (exclusions : List Exclusion) (names : List Text) : Bool :=
  exclusions.any fun e => prunes e.text && matchNames false e.segments names

structure Search where
  base : List Text
  patterns : List (List Segment)

def below? (directory p : Path) : Option (List Text) :=
  if directory.isPrefixOf p && directory.length < p.length then some (p.drop directory.length)
  else none

def Search.run (fs : FileSystem) (root : Path) (exclusions : List Exclusion) (s : Search) :
    List (List Text) :=
  let directory := Path.resolve [] (Path.forward (Path.render (s.base.foldl Path.go root)))
  fs.entries.filterMap fun (p, e) =>
    match e, below? directory p with
    | .file _, some names =>
      let whole := s.base ++ names
      let above := (List.range (names.length - 1)).map fun n => s.base ++ names.take (n + 1)
      if s.patterns.any (matchNames false · whole) && !excluded exclusions whole &&
          !above.any (pruned exclusions) then
        some whole
      else none
    | _, _ => none

def findStatic (fs : FileSystem) (root : Path) (exclusions : List Exclusion) (t : Text) :
    Option (List Text) :=
  let names := Path.steps (withoutDot t)
  match fs.entry? (Path.resolve root t) with
  | some (.file _) => if excluded exclusions names then none else some names
  | _ => none

/-- The searches for patterns with wildcards. Patterns within the directory share one search from it
as soon as one of them needs that. -/
def searches (patterns : List Text) : List Search :=
  let (outside, inside) := patterns.partition isOutside
  let single (t : Text) : Search := ⟨baseOf t, [parse t]⟩
  let inner := if inside.any fun t => (baseOf t).isEmpty then [⟨[], inside.map parse⟩]
    else inside.map single
  outside.map single ++ inner

structure Failure where
  message : Text
  deriving DecidableEq, Repr

def emptyPattern : Failure := ⟨"Patterns must be a string (non empty) or an array of strings"⟩

/-- A way to search for files: from a directory, by the patterns that they match and those that they
do not. -/
abbrev Finder := FileSystem → Path → List Text → List Text → Except Failure (List Text)

def alwaysIgnored : Text := "**/node_modules/**"

/-- The files below `root` that match one of `included` and none of `ignored`: each once, as
absolute paths in no particular order. -/
def find (fs : FileSystem) (root : Path) (included ignored : List Text) :
    Except Failure (List Text) :=
  if included.any List.isEmpty then .error emptyPattern
  else
    let patterns := included.flatMap alternatives
    let (negative, positive) := patterns.partition isNegative
    let exclusions := (negative ++ (alwaysIgnored :: ignored).flatMap alternatives).map fun t =>
      Exclusion.of (withoutBang t)
    let (exact, wild) := positive.partition isStatic
    let found := exact.filterMap (findStatic fs root exclusions) ++
      (searches wild).flatMap (Search.run fs root exclusions)
    .ok (found.eraseDups.map fun names => Path.forward (Path.render (names.foldl Path.go root)))

end Glob

end Seanet
