import Chiptune.Compile
import Chiptune.Options.File
import Chiptune.Project.File

/-!
# Command line

`CommandLine.parse` reads the arguments from left to right and stops at the first one that is
wrong or asks for help or the version. `CommandLine.plan` says what a run does with the contents
of the files that it reads; `perform` carries the plan out.
-/

set_option autoImplicit false

namespace Chiptune.CommandLine

/-- Arguments of a run. -/
structure Arguments where
  input : Option String := none
  output : Option String := none
  musicFile : Option String := none
  sampleFile : Option String := none
  reportFile : Option String := none
  optionFile : Option String := none
  kernel : Option Kernel := none
  dialect : Option Dialect := none
  songs : List Nat := []
  labelStem : Option String := none
  noCompress : Bool := false
  threshold : Option Nat := none
  listExpansions : Bool := false

/-- Why the arguments are not carried out. -/
inductive Halt
  | usage
  | help
  | version
  deriving DecidableEq

/-- Argument with a name. -/
inductive Name
  | bin
  | dpcmBin
  | report
  | config
  | kernel
  | dialect
  | song
  | stem
  | threshold
  | noCompress
  | listExpansions
  | help
  | version
  deriving DecidableEq

namespace Name

/-- Argument of a long name. -/
def ofLong : String → Option Name
  | "bin" => some bin
  | "dpcm-bin" => some dpcmBin
  | "report" => some report
  | "config" => some config
  | "kernel" => some kernel
  | "dialect" => some dialect
  | "song" => some song
  | "prefix" => some stem
  | "threshold" => some threshold
  | "no-compress" => some noCompress
  | "list-expansions" => some listExpansions
  | "help" => some help
  | "version" => some version
  | _ => none

/-- Argument of a letter. -/
def ofLetter : Char → Option Name
  | 'c' => some config
  | 'k' => some kernel
  | 'd' => some dialect
  | 's' => some song
  | 'p' => some stem
  | 't' => some threshold
  | 'L' => some listExpansions
  | 'h' => some help
  | 'V' => some version
  | _ => none

/-- Whether the argument has no value. -/
def isFlag : Name → Bool
  | noCompress | listExpansions | help | version => true
  | _ => false

end Name

/-- Natural number that fits a machine word, with or without a plus sign. -/
def number (text : String) : Except Halt Nat :=
  let digits : List Char := match text.toList with
    | '+' :: rest => rest
    | cs => cs
  let value := digits.foldl (fun n c => 10 * n + (c.toNat - '0'.toNat)) 0
  if digits ≠ [] ∧ digits.all Char.isDigit ∧ value < Json.Numeral.wordRange then .ok value
  else .error .usage

/-- Path, which is not empty. -/
def path (text : String) : Except Halt String := if text = "" then .error .usage else .ok text

/-- Variant of a name. -/
def choice {α : Type} (all : List α) (key : α → String) (text : String) : Except Halt α :=
  match all.find? (key · == text) with
  | some a => .ok a
  | none => .error .usage

/-- The value of an argument that may be given once. -/
def once {α : Type} (given : Option α) (value : Except Halt α) : Except Halt (Option α) :=
  if given.isSome then .error .usage else some <$> value

/-- Set a flag that may be given once. -/
def onceFlag (given : Bool) : Except Halt Bool := if given then .error .usage else .ok true

namespace Arguments

/-- Add an argument with a value. -/
def set (a : Arguments) (name : Name) (value : String) : Except Halt Arguments :=
  match name with
  | .bin => do return { a with musicFile := ← once a.musicFile (path value) }
  | .dpcmBin => do return { a with sampleFile := ← once a.sampleFile (path value) }
  | .report => do return { a with reportFile := ← once a.reportFile (path value) }
  | .config => do return { a with optionFile := ← once a.optionFile (path value) }
  | .kernel => do return { a with kernel := ← once a.kernel (choice Kernel.all Kernel.name value) }
  | .dialect => do
    return { a with dialect := ← once a.dialect (choice Dialect.all Dialect.key value) }
  | .song => do return { a with songs := a.songs ++ [← number value] }
  | .stem => do return { a with labelStem := ← once a.labelStem (.ok value) }
  | .threshold => do return { a with threshold := ← once a.threshold (number value) }
  | _ => .error .usage

/-- Add an argument without a value. -/
def raise (a : Arguments) (name : Name) : Except Halt Arguments :=
  match name with
  | .noCompress => do return { a with noCompress := ← onceFlag a.noCompress }
  | .listExpansions => do return { a with listExpansions := ← onceFlag a.listExpansions }
  | .help => .error .help
  | .version => .error .version
  | _ => .error .usage

/-- Add an argument without a name. -/
def position (a : Arguments) (text : String) : Except Halt Arguments :=
  match a.input, a.output with
  | none, _ => do return { a with input := some (← path text) }
  | some _, none => do return { a with output := some (← path text) }
  | some _, some _ => .error .usage

end Arguments

/-- Add the letters of an argument; the answer names the last one if its value is still to come. -/
def letters (a : Arguments) : List Char → Except Halt (Arguments × Option Name)
  | [] => .ok (a, none)
  | letter :: rest =>
    match Name.ofLetter letter with
    | none => .error .usage
    | some name =>
      if name.isFlag then do
        let a ← a.raise name
        letters a rest
      else
        match rest with
        | [] => .ok (a, some name)
        | '=' :: value => do return (← a.set name (String.ofList value), none)
        | value => do return (← a.set name (String.ofList value), none)

/-- Add an argument with a long name, without its leading dashes. -/
def long (a : Arguments) (text : List Char) : Except Halt (Arguments × Option Name) :=
  match Name.ofLong (String.ofList (text.takeWhile (· != '='))) with
  | none => .error .usage
  | some name =>
    match text.dropWhile (· != '=') with
    | [] =>
      if name.isFlag then do return (← a.raise name, none)
      else .ok (a, some name)
    | _ :: value =>
      if name.isFlag then .error .usage
      else do return (← a.set name (String.ofList value), none)

/-- Add arguments. `waiting` is an argument whose value is still to come, and `plain` says that the
arguments have no names any more. -/
def collect (a : Arguments) (waiting : Option Name) (plain : Bool) :
    List String → Except Halt Arguments
  | [] => if waiting.isSome then .error .usage else .ok a
  | text :: rest =>
    if plain then do
      let a ← a.position text
      collect a none true rest
    else
      match waiting, text.toList with
      | none, ['-', '-'] => collect a none true rest
      | none, '-' :: '-' :: name => do
        let (a, waiting) ← long a name
        collect a waiting false rest
      | none, '-' :: c :: cs => do
        let (a, waiting) ← letters a (c :: cs)
        collect a waiting false rest
      | none, _ => do
        let a ← a.position text
        collect a none false rest
      | some _, '-' :: _ :: _ => .error .usage
      | some name, _ => do
        let a ← a.set name text
        collect a none false rest

/-- Arguments of a run. Unless the chips are to be listed, both files have to be named. -/
def parse (texts : List String) : Except Halt Arguments := do
  let a ← collect {} none false texts
  if a.noCompress ∧ a.threshold.isSome then .error .usage
  if !a.listExpansions && (a.input.isNone || a.output.isNone) then .error .usage
  return a

/-! ## Runs -/

/-- Step of a run that is seen outside. -/
inductive Step
  | write (path : String) (data : List UInt8)
  | warn (message : String)

/-- Options of a run: those of the option file, with the arguments in their place. -/
def options (a : Arguments) (o : Options) : Options :=
  { o with
    kernel := a.kernel.getD o.kernel
    dialect := a.dialect.getD o.dialect
    songs := if a.songs.isEmpty then o.songs else some a.songs
    labelStem := a.labelStem.getD o.labelStem
    compression :=
      match a.threshold with
      | some threshold => .fixed threshold
      | none => if a.noCompress then .off else o.compression }

/-- Options of a run from the contents of the option file, if one is named. -/
def loadOptions (a : Arguments) (file : Option (List UInt8)) : Except Error Options :=
  match a.optionFile, file with
  | none, _ => .ok (options a {})
  | some _, none => .error .io
  | some _, some data => do
    let o ← Options.ofFile data
    return options a o

/-- Write some data if a file is named for it. -/
def writeTo (path : Option String) (data : List UInt8) : List Step :=
  match path with
  | some p => [.write p data]
  | none => []

/-- Bytes of a text. -/
def textBytes (text : String) : List UInt8 := text.toUTF8.toList

/-- Steps of a run from the contents of the option file and of the project file. -/
def plan (a : Arguments) (optionFile projectFile : Option (List UInt8)) :
    Except Error (List Step) := do
  let o ← loadOptions a optionFile
  let file ← match projectFile with
    | some data => Except.ok data
    | none => .error .io
  let project ← Project.ofFile file
  let score ← compile o project
  return writeTo a.output (textBytes score.text) ++
    score.warnings.map (fun w => .warn w.message) ++
    writeTo a.musicFile score.image.music ++
    writeTo a.sampleFile score.image.samples ++
    writeTo a.reportFile (textBytes score.report.toJson)

/-- Carry out steps, up to the first file that cannot be written. -/
def perform {m : Type → Type} [Monad m] (write : String → List UInt8 → m Bool)
    (warn : String → m Unit) : List Step → m (Except Error Unit)
  | [] => return .ok ()
  | .warn message :: rest => do
    warn message
    perform write warn rest
  | .write path data :: rest => do
    if ← write path data then perform write warn rest else return .error .io

/-- Names of the chips, a line each. -/
def expansionList : String :=
  Expansion.all.foldl (fun text chip => text ++ chip.name ++ "\n") ""

/-- Line that tells the version. -/
def versionLine : String := "chipscore 0.1.0\n"

/-- Text that tells the arguments. -/
def usageText : String :=
  "Tracker project to 8-bit sound driver data compiler\n\n" ++
  "Usage: chipscore [OPTIONS] <INPUT> <OUTPUT>\n"

end Chiptune.CommandLine
