import Brainfuck.CommandLine.Arguments
import Brainfuck.CommandLine.Files
import Brainfuck.CommandLine.Stdin
import Brainfuck.CommandLine.Usage
import Brainfuck.Settings.Basic

/-!
# What an invocation asks for

The plan of an invocation follows from its arguments alone: to say something and end, or to run a
program that is given as text or in a file. The settings of a run are the loaded ones, with those
given as options before them.
-/

namespace Brainfuck.CommandLine

/-- What an invocation does. -/
inductive Plan where
  /-- Say something on standard error and end with an exit code. -/
  | stop (exit : Nat) (text : String)
  | fromFile (path : String) (options : RunRequest)
  | fromText (source : String) (options : RunRequest)

namespace Plan

/-- What is said about arguments that are refused. -/
def refusal (name : String) : String :=
  s!"error: the arguments could not be understood\n\nFor more information, run {name} --help\n"

/-- The plan for arguments of `run`. -/
def ofRunArguments (name : String) (a : RunRequest) : Plan :=
  if a.help then .stop 0 (runUsage name)
  else
    match a.file, a.code with
    | none, [] => .stop 2 (runUsage name)
    | some path, [] => .fromFile path a
    | none, code => .fromText (String.join code) a
    | some _, _ =>
      .stop 2 s!"{name}: cannot use positional code together with --file\n{runUsage name}"

/-- The plan for the arguments of the program called `name`. -/
def ofArguments (name : String) (args : List String) : Plan :=
  match Arguments.parse args with
  | none => .stop 2 (refusal name)
  | some ⟨help, none⟩ => .stop (if help then 0 else 2) (usage name)
  | some ⟨true, some _⟩ => .stop 0 (usage name)
  | some ⟨false, some a⟩ => ofRunArguments name a

/-- What is said about a file that cannot be read. -/
def unreadable (name : String) (e : FileError) : String :=
  s!"{name}: failed to read code file as UTF-8: {e.message}\n"

end Plan

/-- The settings with those given as options before them. -/
def RunRequest.override (a : RunRequest) (s : Settings) : Settings where
  memorySize := a.memory.getD s.memorySize
  timeoutMs := a.timeout.or s.timeoutMs

/-- The settings of a run, and what is logged about them. -/
def resolveSettings (a : RunRequest) (path : Option String) (file : Option ByteArray)
    (getVar : String → Option String) : Settings × List LogRecord :=
  let located : List LogRecord := path.toList.map fun path =>
    ⟨.debug, Settings.target, "config path", [("path", .text path)]⟩
  let (loaded, warnings) := Settings.load file getVar
  let settings := a.override loaded
  let resolved : LogRecord :=
    ⟨.debug, runTarget, "resolved engine config", [("config", .text settings.describe)]⟩
  (settings, located ++ warnings ++ [resolved])

end Brainfuck.CommandLine
