import Seanet.File.Path

set_option autoImplicit false

namespace Seanet

inductive Entry where
  | file (content : List UInt8)
  | directory
  deriving DecidableEq, Repr

structure FileSystem where
  /-- The working directory; it and all above it are directories. -/
  home : Path
  entries : List (Path × Entry)
  deriving DecidableEq, Repr

inductive FileFault where
  | notFound | notDirectory | isDirectory | occupied
  deriving DecidableEq, Repr

namespace FileFault

def name : FileFault → Text
  | notFound => "ENOENT: no such file or directory"
  | notDirectory => "ENOTDIR: not a directory"
  | isDirectory => "EISDIR: illegal operation on a directory"
  | occupied => "EEXIST: file already exists"

def during (f : FileFault) (operation : String) (path : Text) : Text :=
  f.name ++ ", " ++ operation ++ " '" ++ path ++ "'"

end FileFault

namespace FileSystem

def entry? (fs : FileSystem) (p : Path) : Option Entry :=
  if p.isPrefixOf fs.home then some .directory else fs.entries.lookup p

def step (fs : FileSystem) (p : Path) (name : Text) : Except FileFault Path :=
  match fs.entry? p with
  | none => .error .notFound
  | some (.file _) => .error .notDirectory
  | some .directory => .ok (p.go name)

def walk (fs : FileSystem) (p : Path) (steps : List Text) : Except FileFault Path :=
  steps.foldlM fs.step p

def origin (fs : FileSystem) (t : Text) : Path := if Path.isAbsolute t then [] else fs.home

def find (fs : FileSystem) (t : Text) : Except FileFault Entry := do
  if t.isEmpty then throw .notFound
  let p ← fs.walk (fs.origin t) (Path.steps t)
  match fs.entry? p with
  | some e => return e
  | none => throw .notFound

def exists? (fs : FileSystem) (t : Text) : Bool := (fs.find t).isOk

def isDirectory (fs : FileSystem) (t : Text) : Bool :=
  match fs.find t with
  | .ok .directory => true
  | _ => false

def read (fs : FileSystem) (t : Text) : Except Text (List UInt8) :=
  match fs.find t with
  | .ok (.file content) => .ok content
  | .ok .directory => .error (FileFault.isDirectory.name ++ ", read")
  | .error f => .error (f.during "open" t)

def put (fs : FileSystem) (p : Path) (e : Entry) : FileSystem :=
  { fs with entries := fs.entries.filter (·.1 != p) ++ [(p, e)] }

/-- Makes a directory and all that are missing above it. -/
def makeDirectory (fs : FileSystem) (p : Path) : Except FileFault FileSystem :=
  if (Path.lineage p.dropLast).any fun q => (fs.entry? q).any (· != .directory) then
    .error .notDirectory
  else
    match fs.entry? p with
    | some (.file _) => .error .occupied
    | _ =>
      .ok ((Path.lineage p).foldl
        (fun fs q => if (fs.entry? q).isSome then fs else fs.put q .directory) fs)

def write (fs : FileSystem) (t : Text) (content : List UInt8) : Except FileFault FileSystem := do
  if t.isEmpty then throw .notFound
  let steps := (Path.steps t).reverse
  let trailing := steps.takeWhile List.isEmpty
  match steps.dropWhile List.isEmpty with
  | [] => throw .isDirectory
  | name :: above =>
    let p ← fs.walk (fs.origin t) above.reverse
    match fs.entry? p with
    | none => throw .notFound
    | some (.file _) => throw .notDirectory
    | some .directory =>
      if !trailing.isEmpty || name == Path.dot || name == Path.dotDot then throw .isDirectory
      match fs.entry? (p ++ [name]) with
      | some .directory => throw .isDirectory
      | _ => return fs.put (p ++ [name]) (.file content)

end FileSystem

end Seanet
