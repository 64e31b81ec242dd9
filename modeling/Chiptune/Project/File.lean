import Chiptune.Error
import Chiptune.Gzip
import Chiptune.Project.Reader

/-!
# Project files

A project file holds JSON, as it is or compressed.
-/

set_option autoImplicit false

namespace Chiptune

/-- Project of the contents of a file. -/
def Project.ofFile (file : List UInt8) : Except Error Project :=
  if Gzip.isGzip file then
    match Gzip.decompress file with
    | some data => (Project.ofJson data).mapError .json
    | none => .error .io
  else (Project.ofJson file).mapError .json

end Chiptune
