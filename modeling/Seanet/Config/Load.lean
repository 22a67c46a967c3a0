import Seanet.Config.Yaml
import Seanet.File.FileSystem
import Seanet.Text.Utf8

set_option autoImplicit false

namespace Seanet

inductive ConfigFault where
  | unreadable (cause : Text)
  | unresolved (cause : Text)
  deriving DecidableEq, Repr

namespace ConfigFault

def message : ConfigFault → Text
  | unreadable cause | unresolved cause => cause

end ConfigFault

namespace FileSystem

def configWith (fs : FileSystem) (reader : Config.Reader) (path : Text) :
    Except ConfigFault Configured :=
  if fs.exists? path then
    match fs.read path with
    | .error cause => .error (.unreadable cause)
    | .ok content =>
      (Config.ofReading path (reader (Utf8.decode content).withoutMark)).mapError .unresolved
  else .ok .default

def config (fs : FileSystem) (path : Text) : Except ConfigFault Configured :=
  fs.configWith Yaml.reader path

end FileSystem

end Seanet
