import Chiptune.Json.Source

/-!
# Typed readers of JSON

A `Reader` turns a source into a value or names the first problem that it meets. Records are read
from objects, whose members may come in any order and where unknown members are skipped, or from
arrays, which give the fields in order. Names of variants are read from strings or from objects
with one member.
-/

set_option autoImplicit false

namespace Chiptune.Json

/-- Reader of values of a type. -/
abbrev Reader (α : Type) := Source → Except JsonProblem α

namespace Source

/-- Problem of a reader that wants another kind of value. -/
def unexpected : Source → JsonProblem
  | .broken cause => cause.reading
  | .number n => if n.overflows then .malformed else .mismatch
  | .string (.error p) => p
  | _ => .mismatch

/-- Problem at the end of a list. -/
def stopAt : Stop → Except JsonProblem Unit
  | .closed => .ok ()
  | .broken p | .comma p => .error p

/-- Problem at the end of a list that must not go on. -/
def mustClose : Stop → Except JsonProblem Unit
  | .closed => .ok ()
  | .broken p => .error p
  | .comma _ => .error .malformed

mutual

/-- Problem of a reader that skips the value. -/
def skip : Source → Except JsonProblem Unit
  | .broken cause => .error cause.skipping
  | .array items stop => do
    skipItems items
    stopAt stop
  | .object entries stop => do
    skipMembers entries
    stopAt stop
  | .keyless => .error .malformed
  | _ => .ok ()

def skipItems : List Source → Except JsonProblem Unit
  | [] => .ok ()
  | item :: rest => do
    item.skip
    skipItems rest

def skipMembers : List (Except JsonProblem String × Source) → Except JsonProblem Unit
  | [] => .ok ()
  | (_, item) :: rest => do
    item.skip
    skipMembers rest

end

mutual

/-- Problem of a reader that keeps the value for later, where lists nest at most `depth` deep. -/
def keep (depth : Nat) : Source → Except JsonProblem Unit
  | .broken cause => .error cause.reading
  | .number n => if n.overflows then .error .malformed else .ok ()
  | .string (.error p) => .error p
  | .array items stop => do
    if depth = 0 then .error .malformed
    keepItems (depth - 1) items
    stopAt stop
  | .object entries stop => do
    if depth = 0 then .error .malformed
    keepMembers (depth - 1) entries
    stopAt stop
  | .keyless => .error .malformed
  | _ => .ok ()

def keepItems (depth : Nat) : List Source → Except JsonProblem Unit
  | [] => .ok ()
  | item :: rest => do
    item.keep depth
    keepItems depth rest

def keepMembers (depth : Nat) :
    List (Except JsonProblem String × Source) → Except JsonProblem Unit
  | [] => .ok ()
  | (key, item) :: rest => do
    discard key
    item.keep depth
    keepMembers depth rest

end

end Source

namespace Reader

/-! ## Leaves -/

/-- Reader of integers within bounds. -/
def int (low high : Int) : Reader Int
  | .number n =>
    if n.overflows then .error .malformed
    else match n.toInt? with
      | some i => if low ≤ i ∧ i ≤ high then .ok i else .error .mismatch
      | none => .error .mismatch
  | source => .error source.unexpected

/-- Reader of sizes and indices. -/
def nat : Reader Nat := fun source => Int.toNat <$> int 0 (Numeral.wordRange - 1) source

/-- Reader of bytes. -/
def uint8 : Reader UInt8 := fun source => (UInt8.ofNat ·.toNat) <$> int 0 255 source

/-- Reader of 16-bit words. -/
def uint16 : Reader UInt16 := fun source => (UInt16.ofNat ·.toNat) <$> int 0 65535 source

/-- Reader of signed bytes. -/
def int8 : Reader Int8 := fun source => Int8.ofInt <$> int (-128) 127 source

def bool : Reader Bool
  | .bool b => .ok b
  | source => .error source.unexpected

def string : Reader String
  | .string text => text
  | source => .error source.unexpected

def null : Reader Unit
  | .null => .ok ()
  | source => .error source.unexpected

/-! ## Lists and options -/

/-- Reader that takes `null` for none. -/
def option {α : Type} (read : Reader α) : Reader (Option α)
  | .null => .ok none
  | source@(.broken cause) =>
    if cause.inNull then .error cause.reading else some <$> read source
  | source => some <$> read source

/-- Reader of lists of any length. -/
def list {α : Type} (read : Reader α) : Reader (List α)
  | .array items stop => do
    let values ← items.mapM read
    Source.stopAt stop
    .ok values
  | source => .error source.unexpected

/-- Reader of lists of a fixed length. -/
def vector {α : Type} (n : Nat) (read : Reader α) : Reader (Vector α n) := fun source => do
  let values ← list read source
  if h : values.length = n then .ok ⟨values.toArray, by simpa using h⟩ else .error .mismatch

/-! ## Variants -/

/-- The entry of a name. -/
def lookup {α : Type} (all : List α) (key : α → String) (name : String) :
    Except JsonProblem α :=
  match all.find? (key · == name) with
  | some a => .ok a
  | none => .error .mismatch

/-- Reader of variants. A string names a variant without a payload, an object with one member a
variant and its payload. -/
def variant {α : Type} (plain : String → Except JsonProblem α)
    (payload : String → Except JsonProblem (Reader α)) : Reader α
  | .string text => do plain (← text)
  | .object ((key, item) :: rest) stop => do
    let read ← payload (← key)
    let value ← read item
    if !rest.isEmpty then .error .malformed
    Source.mustClose stop
    .ok value
  | .object [] .closed => .error .malformed
  | .object [] stop => Source.stopAt stop *> .error .malformed
  | .keyless => .error .malformed
  | .broken cause => .error cause.naming
  | _ => .error .malformed

/-- Reader of variants that have no payload; in an object the payload is `null`. -/
def enum {α : Type} (all : List α) (key : α → String) : Reader α :=
  variant (lookup all key) fun name => do
    let a ← lookup all key name
    .ok fun source => null source *> .ok a

/-! ## Records -/

/-- Field of a record: how a source changes the record. -/
structure Field (α : Type) where
  name : String
  /-- Whether the record has no value without the field. -/
  isRequired : Bool
  read : α → Reader α

/-- Field that a record always has. -/
def required {α β : Type} (name : String) (read : Reader β) (set : α → β → α) : Field α :=
  ⟨name, true, fun a source => set a <$> read source⟩

/-- Field that keeps the value of the initial record unless it is given. -/
def optional {α β : Type} (name : String) (read : Reader β) (set : α → β → α) : Field α :=
  ⟨name, false, fun a source => set a <$> read source⟩

/-- Read one member of an object into a record; `seen` lists the fields that were given before. -/
def readMember {α : Type} (fields : List (Field α)) (state : α × List String)
    (entry : Except JsonProblem String × Source) : Except JsonProblem (α × List String) := do
  let key ← entry.1
  match fields.find? (·.name == key) with
  | some field =>
    if key ∈ state.2 then .error .mismatch
    else
      let a ← field.read state.1 entry.2
      .ok (a, key :: state.2)
  | none =>
    entry.2.skip
    .ok state

/-- Read the items of an array into the fields of a record, one after the other. -/
def readItems {α : Type} (stop : Stop) (a : α) : List (Field α) → List Source →
    Except JsonProblem α
  | [], [] => do
    Source.mustClose stop
    .ok a
  | [], _ :: _ => .error .malformed
  | field :: fields, item :: rest => do
    let a ← field.read a item
    readItems stop a fields rest
  | field :: fields, [] => do
    Source.stopAt stop
    if field.isRequired then .error .mismatch
    readItems stop a fields []

/-- Reader of records from the fields in order and a record to start from. -/
def record {α : Type} (start : α) (fields : List (Field α)) : Reader α
  | .object entries stop => do
    let (a, seen) ← entries.foldlM (readMember fields) (start, [])
    Source.stopAt stop
    if fields.all fun field => !field.isRequired || field.name ∈ seen then .ok a
    else .error .mismatch
  | .array items stop => readItems stop start fields items
  | .keyless => .error .malformed
  | source => .error source.unexpected

/-- Reader of a whole text. -/
def text {α : Type} (read : Reader α) (bytes : List UInt8) : Except JsonProblem α := do
  let document := Document.ofBytes bytes
  let a ← read document.root
  if document.trailing then .error .malformed
  .ok a

end Reader

end Chiptune.Json
