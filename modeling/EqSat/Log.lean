import EqSat.Simplify

/-!
# Log events

A run leaves events: one for every round, one when it stops, and one when two different
constants meet.  An event is shown if its level is high enough, as a line of columns or as
an object.
-/

namespace EqSat.Log

/-- How much an event matters, from least to most. -/
inductive Level where
  | debug
  | info
  | warning
  | error
  | critical
deriving DecidableEq, Repr

/-- A name that is known, but for something else than a level. -/
structure LevelError where
  value : String
deriving DecidableEq, Repr

def LevelError.message (e : LevelError) : String := "Unknown level: " ++ Text.quoted e.value

namespace Level

def rank : Level → Nat
  | debug => 10
  | info => 20
  | warning => 30
  | error => 40
  | critical => 50

def name : Level → String
  | debug => "debug"
  | info => "info"
  | warning => "warning"
  | error => "error"
  | critical => "critical"

/-- Upper case of a letter in a level name; the dotless i is an I and the long s an S. -/
def upper (c : Char) : Char :=
  if c == 'ı' then 'I' else if c == 'ſ' then 'S' else c.toUpper

/-- What `BASIC_FORMAT` names: a line format, which is no level. -/
def basicFormat : String := "%(levelname)s:%(name)s:%(message)s"

/-- The level of a name in any case.  An unknown name means `warning`. -/
def ofString (s : String) : Except LevelError Level :=
  match String.ofList (s.toList.map upper) with
  | "DEBUG" => .ok debug
  | "INFO" => .ok info
  | "ERROR" => .ok error
  | "CRITICAL" => .ok critical
  | "FATAL" => .ok critical
  | "BASIC_FORMAT" => .error ⟨basicFormat⟩
  | _ => .ok warning

end Level

inductive Value where
  | text (s : String)
  | number (n : Nat)
  | missing
deriving DecidableEq, Repr

/-- What happened, in which part of the program. -/
structure Event where
  level : Level
  system : String
  name : String
  fields : List (String × Value)
deriving DecidableEq, Repr

/-- The shape of a line. -/
inductive Format where
  | console
  | object
deriving DecidableEq, Repr

/-! ## Lines -/

namespace Event

/-- The name that the events of a part of the program are filed under. -/
def logger (e : Event) : String := "starling." ++ e.system

def sortFields (fields : List (String × Value)) : List (String × Value) :=
  fields.mergeSort fun a b => a.1 ≤ b.1

/-- Fill up with spaces to a width. -/
def padded (width : Nat) (s : String) : String :=
  s ++ String.ofList (List.replicate (width - s.length) ' ')

/-- A text with a space in it stands between quotes; a missing value is an empty list. -/
def consoleValue : Value → String
  | .text s => if s.toList.contains ' ' then Text.quoted s else s
  | .number n => toString n
  | .missing => "[]"

/-- The event in columns: level, name, logger, and the fields by name. -/
def consoleLine (e : Event) : String :=
  let fields := sortFields (("system", .text e.system) :: e.fields)
  "[" ++ padded 9 e.level.name ++ "] " ++ padded 30 e.name ++ " [" ++ e.logger ++ "]" ++
    String.join (fields.map fun (key, v) => " " ++ key ++ "=" ++ consoleValue v)

/-- A character between double quotes; what is not ASCII is escaped by its UTF-16 units. -/
def escapeAscii (c : Char) : List Char :=
  if c == '"' || c == '\\' then ['\\', c]
  else if c == '\n' then ['\\', 'n']
  else if c == '\r' then ['\\', 'r']
  else if c == '\t' then ['\\', 't']
  else if 32 ≤ c.toNat && c.toNat < 127 then [c]
  else if c.toNat < 0x10000 then ['\\', 'u'] ++ Text.hexPadded 4 c.toNat
  else
    let n := c.toNat - 0x10000
    ['\\', 'u'] ++ Text.hexPadded 4 (0xD800 + n / 0x400) ++
      (['\\', 'u'] ++ Text.hexPadded 4 (0xDC00 + n % 0x400))

def objectText (s : String) : String :=
  String.ofList ('"' :: s.toList.flatMap escapeAscii ++ ['"'])

def objectValue : Value → String
  | .text s => objectText s
  | .number n => toString n
  | .missing => "[]"

/-- All there is to the event, by name. -/
def allFields (e : Event) : List (String × Value) :=
  sortFields ([("event", .text e.name), ("level", .text e.level.name), ("logger", .text e.logger),
    ("system", .text e.system)] ++ e.fields)

/-- The event as an object. -/
def objectLine (e : Event) : String :=
  "\x7b" ++ ", ".intercalate (e.allFields.map fun (key, v) =>
    objectText key ++ ": " ++ objectValue v) ++ "\x7d"

def line (format : Format) (e : Event) : String :=
  match format with
  | .console => e.consoleLine
  | .object => e.objectLine

/-- The event is important enough. -/
def isShown (threshold : Level) (e : Event) : Bool := threshold.rank ≤ e.level.rank

end Event

/-- The lines of the events that are shown. -/
def lines (format : Format) (threshold : Level) (es : List Event) : List String :=
  (es.filter (·.isShown threshold)).map (·.line format)

/-! ## Events of a run -/

/-- The end of a round. -/
def ofIteration (it : Iteration) : Event where
  level := .debug
  system := "runner"
  name := "iteration"
  fields := [("index", .number it.index), ("matches", .number it.found.total),
    ("unions", .number it.unions), ("nodes", .number it.nodes), ("classes", .number it.classes)]

/-- The end of a run. -/
def ofStop (reason : StopReason) (r : Runner) : Event where
  level := .info
  system := "runner"
  name := "saturation_stopped"
  fields := [("reason", .text reason.text), ("iterations", .number r.report.iterations.size),
    ("nodes", .number r.egraph.numNodes), ("classes", .number r.egraph.numClasses)]

/-- Two constants that met. -/
def ofConflict (e : Conflict) : Event where
  level := .error
  system := "egraph"
  name := "inconsistent_analysis"
  fields := [("left", .text e.left.text), ("right", .text e.right.text),
    ("left_id", .number e.leftClass), ("right_id", .number e.rightClass)]

/-- The events of a simplification that ended with this runner. -/
def ofRun {α : Type} (result : Except SimplifyError α) (r : Runner) : List Event :=
  r.report.iterations.toList.map ofIteration ++
    (match r.report.stopReason with
      | some reason => [ofStop reason r]
      | none => []) ++
    (match result with
      | .error (.conflict e) => [ofConflict e]
      | _ => [])

end EqSat.Log
