/-!
# Warnings

A compile collects warnings about its input. A warning never changes the compiled data. Some are
given each time (`Log.warn`), others only the first time their message comes up (`Log.warnOnce`).
-/

set_option autoImplicit false

namespace Chiptune

/-- What a warning is about. -/
inductive WarningKind
  /-- A curve needs a feature that the driver lacks. -/
  | unsupportedCurve
  /-- An inconsistent curve is replaced by the default one or cut. -/
  | malformedCurve
  /-- A table has more entries than it can hold. -/
  | tableOverflow
  /-- Channels fight over a shared hardware resource. -/
  | ambiguousSharing
  /-- An effect is not available on the kernel or the channel. -/
  | unsupportedFeature
  /-- A value is outside its range. -/
  | clamped
  deriving DecidableEq

namespace WarningKind

def all : List WarningKind :=
  [unsupportedCurve, malformedCurve, tableOverflow, ambiguousSharing, unsupportedFeature, clamped]

/-- Name in reports. -/
def key : WarningKind → String
  | unsupportedCurve => "unsupported_curve"
  | malformedCurve => "malformed_curve"
  | tableOverflow => "table_overflow"
  | ambiguousSharing => "ambiguous_sharing"
  | unsupportedFeature => "unsupported_feature"
  | clamped => "clamped"

end WarningKind

/-- One warning. -/
structure Warning where
  kind : WarningKind
  message : String
  deriving DecidableEq

/-- Warnings of a compile in order of emission. -/
structure Log where
  warnings : List Warning := []
  /-- Messages that are given only once and were given. -/
  seen : List String := []
  deriving DecidableEq

namespace Log

/-- The log without warnings. -/
def empty : Log := {}

/-- Add a warning. -/
def warn (log : Log) (kind : WarningKind) (message : String) : Log :=
  { log with warnings := log.warnings ++ [⟨kind, message⟩] }

/-- Add a warning unless its message was given by `warnOnce` before. -/
def warnOnce (log : Log) (kind : WarningKind) (message : String) : Log :=
  if message ∈ log.seen then log
  else { log with seen := message :: log.seen }.warn kind message

/-- Add a warning if a condition holds. -/
def warnIf (log : Log) (condition : Bool) (kind : WarningKind) (message : String) : Log :=
  if condition then log.warn kind message else log

/-- Add a warning if a condition holds, unless its message was given by `warnOnce` before. -/
def warnOnceIf (log : Log) (condition : Bool) (kind : WarningKind) (message : String) : Log :=
  if condition then log.warnOnce kind message else log

end Log

end Chiptune
