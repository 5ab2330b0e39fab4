/-!
# Log records

A log record is a message with named values. It has a level, which says how important it is, and a
target, which says what part of the program it comes from. Levels are ordered by how much they let
through: `error` the least, `trace` the most.
-/

namespace Brainfuck

/-- How important a log record is. -/
inductive LogLevel where
  | error
  | warn
  | info
  | debug
  | trace
  deriving DecidableEq

namespace LogLevel

/-- The level as it is written. -/
def name : LogLevel → String
  | .error => "ERROR"
  | .warn => "WARN"
  | .info => "INFO"
  | .debug => "DEBUG"
  | .trace => "TRACE"

/-- How much a level lets through. -/
def rank : LogLevel → Nat
  | .error => 1
  | .warn => 2
  | .info => 3
  | .debug => 4
  | .trace => 5

end LogLevel

/-- A value in a log record. -/
inductive LogValue where
  | number (n : Nat)
  | char (c : Char)
  | text (s : String)
  deriving DecidableEq

/-- The value as it is written. -/
def LogValue.render : LogValue → String
  | .number n => toString n
  | .char c => c.toString
  | .text s => s

/-- A line of a log. -/
structure LogRecord where
  level : LogLevel
  target : String
  message : String
  values : List (String × LogValue)
  deriving DecidableEq

namespace LogRecord

/-- The record has a value of this name; the message counts as one. -/
def hasField (r : LogRecord) (name : String) : Bool :=
  name == "message" || r.values.any (·.1 == name)

/-- The message and the values. -/
def text (r : LogRecord) : String :=
  r.values.foldl (fun text (name, value) => s!"{text} {name}={value.render}") r.message

/-- The record after its level. -/
def render (r : LogRecord) : String :=
  s!"{r.level.name} {r.text}"

end LogRecord

end Brainfuck
