import Seanet.Artifact
import Seanet.Compilation
import Seanet.File.FileSystem
import Seanet.Text.Utf8

set_option autoImplicit false

namespace Seanet

inductive FileOperation where
  | read | write
  deriving DecidableEq, Repr

namespace FileOperation

def name : FileOperation → String
  | read => "read"
  | write => "write"

end FileOperation

structure FileAccessError where
  operation : FileOperation
  path : Text
  cause : Text
  deriving DecidableEq, Repr

namespace FileAccessError

def message (e : FileAccessError) : Text :=
  "Cannot " ++ e.operation.name ++ " " ++ e.path ++ ": " ++ e.cause

end FileAccessError

structure Order where
  program : Program Token
  outputPath : Text
  kind : OutputKind
  name : Text

/-- A code generator: the file system after it, and the cause of its failure if it fails. -/
abbrev Generator := Order → FileSystem → FileSystem × Option Text

/-- Writes the artifact of an order, and first the directories that are to hold it. -/
def Generator.standIn : Generator := fun order fs =>
  let directory := (Path.resolve fs.home order.outputPath).dropLast
  match fs.makeDirectory directory with
  | .error f => (fs, some (f.during "mkdir" (Path.render directory)))
  | .ok fs =>
    let artifact : Artifact := ⟨order.name, order.kind⟩
    match fs.write order.outputPath (Utf8.encode artifact.fileText) with
    | .error f => (fs, some (f.during "open" order.outputPath))
    | .ok fs => (fs, none)

structure Build where
  result : Except FileAccessError (Compilation × Option Text)
  order : Option Order
  files : FileSystem

def FileSystem.source (fs : FileSystem) (path : Text) : Except FileAccessError Source :=
  match fs.read path with
  | .error cause => .error ⟨.read, path, cause⟩
  | .ok content => .ok ⟨path, (Utf8.decode content).withoutMark⟩

/-- Builds a file. An empty output path is none. -/
def FileSystem.build (fs : FileSystem) (input : Text) (output : Option Text) (kind : OutputKind)
    (generator : Generator) : Build :=
  match fs.source input with
  | .error e => ⟨.error e, none, fs⟩
  | .ok source =>
    let compilation := source.compile
    match output.filter (!·.isEmpty) with
    | none => ⟨.ok (compilation, none), none, fs⟩
    | some path =>
      if compilation.isClean then
        let order : Order := ⟨compilation.program, path, kind, Path.stem (Path.baseName input)⟩
        match generator order fs with
        | (fs, none) => ⟨.ok (compilation, some path), some order, fs⟩
        | (fs, some cause) => ⟨.error ⟨.write, path, cause⟩, some order, fs⟩
      else ⟨.ok (compilation, none), none, fs⟩

end Seanet
