import Brainfuck.CommandLine.LogFilter
import Brainfuck.CommandLine.Process

/-!
# How an invocation begins

An invocation finds its arguments, the environment, the settings file and the other files, and from
these follows how it begins: it is over at once, with an exit code and a text about the reason, or it
has taken an engine for the run. Only what it then finds on standard input, when it is interrupted
and how fast its threads are is left open.
-/

namespace Brainfuck.CommandLine

/-- How an invocation begins. -/
inductive Opening where
  /-- It is over before there is a run. -/
  | over (exit : Nat) (written : List Emission)
  /-- It has taken its engine for the run. -/
  | running (process : Process) (written : List Emission)

/-- How an invocation begins that runs a text. -/
def Opening.ofSource (name : String) (terminal : Bool) (source : String) (options : RunRequest)
    (settingsPath : Option String) (settingsFile : Option ByteArray)
    (getVar : String → Option String) : Opening :=
  let (settings, log) := resolveSettings options settingsPath settingsFile getVar
  let said := log.map Emission.log
  match Process.start name terminal source settings with
  | .error text => .over 1 (said ++ [.stderr text])
  | .ok process => .running process said

/-- What an invocation finds. -/
structure Surroundings where
  name : String
  arguments : List String
  environment : List (String × String)
  /-- Where the settings file is looked for. -/
  settingsPath : Option String
  /-- The content of the settings file, if there is one. -/
  settingsFile : Option ByteArray
  files : FileTree
  /-- What the reads of standard input give. -/
  stdin : List Reading
  /-- An interrupt comes once so many bytes were written to standard output. -/
  interruptAfter : Option Nat
  /-- Why no thread can be had for the worker. -/
  refusal : Option String
  /-- What stands for the time in the lines of the log. -/
  stamp : String

namespace Surroundings

/-- The value of a variable. -/
def getVar (s : Surroundings) (name : String) : Option String :=
  (s.environment.find? (·.1 == name)).map (·.2)

/-- The filter of the log. -/
def filter (s : Surroundings) : LogFilter :=
  .ofVariable (s.getVar "JBF_LOG")

/-- What the invocation does. -/
def plan (s : Surroundings) : Plan :=
  .ofArguments s.name s.arguments

/-- How the invocation begins if it runs this text. -/
def openSource (s : Surroundings) (source : String) (options : RunRequest) : Opening :=
  .ofSource s.name false source options s.settingsPath s.settingsFile s.getVar

/-- How the invocation begins. -/
def opening (s : Surroundings) : Opening :=
  match s.plan with
  | .stop exit text => .over exit [.stderr text]
  | .fromText source options => s.openSource source options
  | .fromFile path options =>
    match s.files.readText path with
    | .ok source => s.openSource source options
    | .error e => .over 1 [.stderr (Plan.unreadable s.name e)]

/-- The program is read from standard input, which leaves nothing there. -/
def readsProgram (s : Surroundings) : Bool :=
  match s.plan with
  | .fromFile path _ => s.files.isInput path
  | _ => false

/-- What is done about standard input during the run. -/
def forwards (s : Surroundings) : List Forward :=
  Forward.all Forward.emptyBuffer (if s.readsProgram then [] else s.stdin)

end Surroundings

end Brainfuck.CommandLine
