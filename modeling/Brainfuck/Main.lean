import Brainfuck.CommandLine.Invocation
import Brainfuck.CommandLine.Stamp
import Std.Time.DateTime.Timestamp

/-!
# The program `jbf`

The command line in the real world. One process state is shared by the threads; each of them carries
out its moves on it one at a time and writes what they emit. Standard input is read only while the
worker waits for it. The system itself acts on an interrupt, by ending the process.
-/

namespace Brainfuck.CommandLine

/-- What the threads of a running invocation share. -/
structure World where
  /-- The state of the invocation. -/
  process : IO.Ref Process
  filter : LogFilter

/-- The time, as lines of the log begin with it. -/
def stampNow : IO String := do
  let now ← Std.Time.Timestamp.now
  return Stamp.ofMicroseconds (now.toNanosecondsSinceUnixEpoch.toInt.toNat / 1000)

/-- Writes to standard error. -/
def complain (text : String) : IO Unit := do
  let stderr ← IO.getStderr
  stderr.putStr text
  stderr.flush

/-- Writes a log record, if the filter lets it through. -/
def logTo (filter : LogFilter) (record : LogRecord) : IO Unit := do
  if filter.lets record then
    complain (LogFilter.line (← stampNow) record)

/-- Writes. -/
def emitTo (filter : LogFilter) : Emission → IO Unit
  | .stdout value => do
    let stdout ← IO.getStdout
    stdout.write ⟨#[value]⟩
    stdout.flush
  | .stderr text => complain text
  | .log record => logTo filter record

/-- Carries out a move. -/
def World.move (w : World) (m : Move) : IO Unit := do
  let written ← w.process.modifyGet fun p =>
    let (p, written) := p.step m
    (written, p)
  written.forM (emitTo w.filter)

/-- How often a worker that waits looks for input before the cycle is over, a millisecond apart. -/
def looksPerCycle : Nat :=
  10

/-- Waits until there is something to do for the worker, at most for one cycle. -/
def World.lookForInput (w : World) : (looks : Nat) → IO Unit
  | 0 => return
  | looks + 1 => do
    if (← w.process.get).isStarved then
      IO.sleep 1
      w.lookForInput looks

/-- The worker. -/
partial def World.work (w : World) : IO Unit := do
  if (← w.process.get).runIsOver then return
  w.lookForInput looksPerCycle
  w.move .work
  w.work

/-- The thread that forwards standard input. -/
partial def World.forwardInput (w : World) (stdin : IO.FS.Stream) (buffer : List UInt8) :
    IO Unit := do
  let p ← w.process.get
  if p.runIsOver then return
  if p.isStarved then
    let reading ← try
        pure (Reading.data (← stdin.read Forward.capacity.toUSize).toList)
      catch e => pure (Reading.failed (toString e))
    match Forward.ofReading buffer reading with
    | (.push bytes, buffer) =>
      w.move (.input bytes)
      w.forwardInput stdin buffer
    | (.again, buffer) => w.forwardInput stdin buffer
    | (.over note, _) => note.forM fun record => w.move (.note record)
  else
    IO.sleep 1
    w.forwardInput stdin buffer

/-- The thread that waits for the timeout. -/
partial def World.waitForTimeout (w : World) (milliseconds : Nat) : IO Unit := do
  if (← w.process.get).runIsOver then return
  if milliseconds = 0 then
    w.move .expire
    w.move .stopForTimeout
  else
    let nap := min milliseconds 10
    IO.sleep nap.toUInt32
    w.waitForTimeout (milliseconds - nap)

/-- Where the settings file is looked for. -/
def findSettings : IO (Option String) := do
  match ← IO.getEnv "XDG_CONFIG_HOME" with
  | some home => return some s!"{home}/jbf.toml"
  | none => return (← IO.getEnv "HOME").map fun home => s!"{home}/.config/jbf.toml"

/-- The content of a file. -/
def readFile (path : String) : IO (Except FileError ByteArray) :=
  try
    return .ok (← IO.FS.readBinFile path)
  catch e =>
    return .error (match e with
      | .noFileOrDirectory .. => .notFound
      | .inappropriateType _ code _ =>
        if code.toNat = FileError.notDirectoryCode then .notDirectory else .isDirectory
      | e => .other (toString e))

/-- Runs a program. -/
def runSource (name source : String) (options : RunRequest) : IO UInt32 := do
  let filter := LogFilter.ofVariable (← IO.getEnv "JBF_LOG")
  let memory ← IO.getEnv "JBF_MEMORY_SIZE"
  let timeout ← IO.getEnv "JBF_TIMEOUT_MS"
  let getVar : String → Option String
    | "JBF_MEMORY_SIZE" => memory
    | "JBF_TIMEOUT_MS" => timeout
    | _ => none
  let path ← findSettings
  let file ← match path with
    | some path => pure (← readFile path).toOption
    | none => pure none
  let terminal ← (← IO.getStderr).isTty
  match Opening.ofSource name terminal source options path file getVar with
  | .over exit written =>
    written.forM (emitTo filter)
    return exit.toUInt32
  | .running process written =>
    written.forM (emitTo filter)
    let world : World := ⟨← IO.mkRef process, filter⟩
    let stdin ← IO.getStdin
    let _ ← IO.asTask (world.forwardInput stdin Forward.emptyBuffer) .dedicated
    if let some milliseconds := process.settings.timeoutMs then
      let _ ← IO.asTask (world.waitForTimeout milliseconds) .dedicated
    world.work
    world.move .join
    world.move .conclude
    return ((← world.process.get).exit?.getD 1).toUInt32

/-- Does what the arguments ask for. -/
def execute (name : String) (args : List String) : IO UInt32 := do
  match Plan.ofArguments name args with
  | .stop exit text =>
    complain text
    return exit.toUInt32
  | .fromText source options => runSource name source options
  | .fromFile path options =>
    match (← readFile path).bind FileTree.textOf with
    | .ok source => runSource name source options
    | .error e =>
      complain (Plan.unreadable name e)
      return 1

end Brainfuck.CommandLine

/-- The entry point. -/
def main (args : List String) : IO UInt32 :=
  Brainfuck.CommandLine.execute "jbf" args
