import Brainfuck.Log
import Brainfuck.Settings.Section
import Brainfuck.Text.Decimal

/-!
# Settings

The settings of an engine are the number of its cells and the time a run may take. They start from
defaults; the `[engine]` section of the settings file overrides those, and the environment overrides
the file. A value that is not valid changes nothing, wherever it stands; one in the file is warned
about.
-/

namespace Brainfuck

/-- The settings of an engine. -/
structure Settings where
  memorySize : Nat
  /-- The time a run may take, in milliseconds. -/
  timeoutMs : Option Nat
  deriving DecidableEq

namespace Settings

/-- The number of cells unless told otherwise. -/
def defaultMemorySize : Nat :=
  30000

/-- The settings unless told otherwise. -/
def default : Settings :=
  ⟨defaultMemorySize, none⟩

/-- Reads a number of cells: a numeral that is not zero. Underscores may stand anywhere in it. -/
def memorySize? (value : List Char) : Option Nat :=
  match Decimal.word? ((Text.trim value).filter (· != '_')) with
  | some n => if 0 < n then some n else none
  | none => none

/-- The target of the log records about settings. -/
def target : String :=
  "jbf::config"

/-- The warning about a value in the settings file that is not valid. -/
def warning (key : String) (value : List Char) : LogRecord :=
  ⟨.warn, target, s!"ignoring invalid {key} in config", [("value", .text (String.ofList value))]⟩

/-- The section of the settings file that is read. -/
def sectionName : String :=
  "engine"

/-- Takes over the number of cells that the file assigns. -/
def applyMemorySize (s : Settings) : Option (List Char) → Settings × List LogRecord
  | none => (s, [])
  | some value =>
    match memorySize? value with
    | some n => ({ s with memorySize := n }, [])
    | none => (s, [warning "memory_size" value])

/-- Takes over the time that the file assigns. -/
def applyTimeout (s : Settings) : Option (List Char) → Settings × List LogRecord
  | none => (s, [])
  | some value =>
    match Decimal.word? value with
    | some n => ({ s with timeoutMs := some n }, [])
    | none => (s, [warning "timeout_ms" value])

/-- Takes over what the text of a settings file assigns, and warns of what is not valid. -/
def applyFile (s : Settings) (content : List Char) : Settings × List LogRecord :=
  let entries := assignments sectionName.toList content
  let (s, memoryLog) := s.applyMemorySize (lookup "memory_size".toList entries)
  let (s, timeoutLog) := s.applyTimeout (lookup "timeout_ms".toList entries)
  (s, memoryLog ++ timeoutLog)

/-- Takes over what the environment sets. -/
def applyEnvironment (s : Settings) (getVar : String → Option String) : Settings :=
  let memorySize := (getVar "JBF_MEMORY_SIZE").bind fun v => memorySize? v.toList
  let timeoutMs := (getVar "JBF_TIMEOUT_MS").bind fun v => Decimal.word? (Text.trim v.toList)
  { memorySize := memorySize.getD s.memorySize
    timeoutMs := timeoutMs.or s.timeoutMs }

/-- The settings that a file and the environment give. A file that cannot be read, or whose bytes
are no text, counts as if there were none. -/
def load (file : Option ByteArray) (getVar : String → Option String) :
    Settings × List LogRecord :=
  let (s, log) := match file.bind String.fromUTF8? with
    | some content => default.applyFile content.toList
    | none => (default, [])
  (s.applyEnvironment getVar, log)

/-- The settings as they are logged. -/
def describe (s : Settings) : String :=
  let timeout := match s.timeoutMs with
    | some n => s!"Some({n})"
    | none => "None"
  s!"EngineConfig \x7b memory_size: {s.memorySize}, timeout_ms: {timeout} \x7d"

end Settings

end Brainfuck
