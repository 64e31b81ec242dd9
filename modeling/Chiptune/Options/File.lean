import Chiptune.Options
import Chiptune.Project.Reader
import Chiptune.Project.Writer

/-!
# Option files

An option file is a JSON object; every field has a default.
-/

set_option autoImplicit false

namespace Chiptune

open Json

namespace Read

open Json.Reader

def kernel : Reader Kernel := enum Kernel.all Kernel.name

def dialect : Reader Dialect := enum Dialect.all Dialect.key

/-- Reader of the bounds of a sweep. -/
def sweep : Reader Compression := fun source => do
  let fields : List (Reader.Field (Nat × Nat)) :=
    [required "min" nat fun s v => (v, s.2), required "max" nat fun s v => (s.1, v)]
  let (low, high) ← record (0, 0) fields source
  .ok (.sweep low high)

def compression : Reader Compression :=
  variant
    (fun
      | "off" => .ok .off
      | _ => .error .mismatch)
    (fun
      | "off" => .ok fun source => null source *> .ok .off
      | "fixed" => .ok fun source => Compression.fixed <$> nat source
      | "sweep" => .ok sweep
      | _ => .error .mismatch)

def options : Reader Options :=
  record {}
    [optional "kernel" kernel fun o v => { o with kernel := v },
      optional "dialect" dialect fun o v => { o with dialect := v },
      optional "label_prefix" string fun o v => { o with labelStem := v },
      optional "songs" (option (list nat)) fun o v => { o with songs := v },
      optional "data_base" uint16 fun o v => { o with dataBase := v },
      optional "dpcm_base" uint16 fun o v => { o with sampleBase := v },
      optional "compression" compression fun o v => { o with compression := v },
      optional "machine" (option machine) fun o v => { o with machine := v }]

end Read

namespace Write

def compression : Compression → Json
  | .off => string "off"
  | .fixed threshold => object [("fixed", nat threshold)]
  | .sweep low high => object [("sweep", object [("min", nat low), ("max", nat high)])]

def options (o : Options) : Json :=
  object [("kernel", string o.kernel.name), ("dialect", string o.dialect.key),
    ("label_prefix", string o.labelStem), ("songs", ofOption (ofList nat) o.songs),
    ("data_base", uint16 o.dataBase), ("dpcm_base", uint16 o.sampleBase),
    ("compression", compression o.compression),
    ("machine", ofOption (fun m => string m.key) o.machine)]

end Write

namespace Options

/-- Options of a JSON text. -/
def ofJson (bytes : List UInt8) : Except JsonProblem Options := Reader.text Read.options bytes

/-- Options of the contents of a file, which has to be a text. -/
def ofFile (file : List UInt8) : Except Error Options :=
  match utf8Text file with
  | some _ => (ofJson file).mapError .json
  | none => .error .io

/-- JSON text of options. -/
def toJson (o : Options) : String := (Write.options o).compact

end Options

end Chiptune
