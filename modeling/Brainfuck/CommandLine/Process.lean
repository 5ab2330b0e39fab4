import Brainfuck.CommandLine.Plan
import Brainfuck.Engine.System
import Brainfuck.Report

/-!
# A running invocation

While a program runs, five threads share the work: the main thread, which waits for the run and then
says how it ended; the worker; and, once the worker exists, one that forwards standard input, one
that waits for the timeout and one that waits for an interrupt. A `Move` is one indivisible action
of one of them. The timeout thread first notes that the time is up (`expire`) and then asks for a
stop (`stopForTimeout`); the main thread first learns the result (`join`) and then looks at that
note (`conclude`).
-/

namespace Brainfuck.CommandLine

/-- Something an invocation writes. -/
inductive Emission where
  /-- A byte of standard output. -/
  | stdout (value : UInt8)
  /-- A text on standard error. -/
  | stderr (text : String)
  /-- A record of the log, which goes to standard error if the filter lets it through. -/
  | log (record : LogRecord)

/-- How far the main thread has come. -/
inductive MainStage where
  /-- It waits for the run. -/
  | waiting
  /-- It has the result of the run. -/
  | joined (result : Result)
  /-- It has ended the invocation. -/
  | over (exit : Nat)

/-- A running invocation. -/
structure Process where
  name : String
  /-- Standard error is a terminal. -/
  terminal : Bool
  /-- The text of the program that runs. -/
  source : String
  /-- The settings of the run. -/
  settings : Settings
  /-- The engine; the run is its first call. -/
  system : System
  /-- The timeout thread has noted that the time is up. -/
  timedOut : Bool
  /-- How far the main thread has come. -/
  stage : MainStage

/-- One indivisible action of one thread. -/
inductive Move where
  /-- The worker goes on. -/
  | work
  /-- The worker is refused its thread. -/
  | refuse (reason : String)
  /-- Bytes of standard input are passed on. -/
  | input (bytes : List UInt8)
  /-- Something about standard input is logged. -/
  | note (record : LogRecord)
  /-- An interrupt asks for a stop. Where no interrupt can be waited for, this stands for the stop that
  the main thread asks for at once. -/
  | interrupt
  /-- The time is noted to be up. -/
  | expire
  /-- The timeout thread asks for a stop. -/
  | stopForTimeout
  /-- The main thread learns the result of the run. -/
  | join
  /-- The main thread says how the run ended. -/
  | conclude

/-- The bytes of standard output among what is written. -/
def stdoutOf (written : List Emission) : List UInt8 :=
  written.filterMap fun
    | .stdout value => some value
    | _ => none

namespace Process

/-- What an event of the run makes the invocation write: the output sink writes the byte. -/
def emissions (event : Event) : List Emission :=
  let printed := match event with
    | .printed value _ => [Emission.stdout value]
    | _ => []
  (event.record?.toList.map Emission.log) ++ printed

/-- An invocation that has just taken its engine for the run, or what is said when there is no
engine. -/
def start (name : String) (terminal : Bool) (source : String) (settings : Settings) :
    Except String Process :=
  match System.new settings.memorySize with
  | .error cause => .error (Report.ofError terminal (some name) source.toList cause)
  | .ok system =>
    let (system, _) := system.run
      [.call .spawn (Program.ofString source), .advance 0, .advance 0, .advance 0]
    .ok { name, terminal, source, settings, system, timedOut := false, stage := .waiting }

/-- The text for a run that was stopped because its time was up. -/
def timeoutText (milliseconds : Nat) : String :=
  s!"Execution aborted: wall-clock timeout exceeded ({milliseconds} ms)\n"

/-- The text for a run that was stopped otherwise. -/
def stoppedText : String :=
  "Execution stopped\n"

/-- The exit code for a result, and what is written about it. A run that took place ends its output
with a line feed. -/
def verdict (p : Process) : Result → Nat × List Emission
  | .done outcome =>
    match outcome.termination, p.timedOut with
    | .completed, _ => (0, [.stdout 10])
    | .cancelled, true =>
      (1, [.stderr (timeoutText (p.settings.timeoutMs.getD 0)), .stdout 10])
    | .cancelled, false => (0, [.stderr stoppedText, .stdout 10])
  | .failed cause =>
    let report := Emission.stderr (Report.ofError p.terminal (some p.name) p.source.toList cause)
    match cause with
    | .noThread _ => (1, [report])
    | _ => (1, [report, .stdout 10])
  | .crashed =>
    let report := Report.ofError p.terminal (some p.name) p.source.toList .workerLost
    (1, [.stderr report, .stdout 10])

/-- Carries out an act of the engine. -/
def engineAct (act : Act) : Process → Process × List Emission
  | ⟨name, terminal, source, settings, system, timedOut, stage⟩ =>
    let (system, events) := system.act act
    (⟨name, terminal, source, settings, system, timedOut, stage⟩, events.flatMap emissions)

/-- Carries out a move, and says what it writes. -/
def step (p : Process) : Move → Process × List Emission
  | .work => p.engineAct (p.system.nextAct 0)
  | .refuse reason => p.engineAct (.refuse 0 reason)
  | .input bytes => p.engineAct (.push bytes)
  | .note record => (p, [.log record])
  | .interrupt => p.engineAct .stop
  | .expire => ({ p with timedOut := true }, [])
  | .stopForTimeout => if p.timedOut then p.engineAct .stop else (p, [])
  | .join =>
    match p.stage, p.system.result? 0 with
    | .waiting, some result => ({ p with stage := .joined result }, [])
    | _, _ => (p, [])
  | .conclude =>
    match p.stage with
    | .joined result =>
      let (exit, written) := p.verdict result
      ({ p with stage := .over exit }, written)
    | _ => (p, [])

/-- Carries out moves, and says what they write. -/
def run (p : Process) : List Move → Process × List Emission
  | [] => (p, [])
  | m :: moves =>
    let (p, written) := p.step m
    let (p, later) := p.run moves
    (p, written ++ later)

/-- The exit code, once the invocation is over. -/
def exit? (p : Process) : Option Nat :=
  match p.stage with
  | .over exit => some exit
  | _ => none

/-- The run has come to its end. -/
def runIsOver (p : Process) : Bool :=
  (p.system.result? 0).isSome

/-- The worker can do nothing but wait for input. -/
def isStarved (p : Process) : Bool :=
  p.system.isStarved 0 && p.system.engine.running

/-- The worker does at most `most` silent pieces of work at once. The result is how many, and the
process after them. -/
def stretch (most : Nat) : Process → Nat × Process
  | ⟨name, terminal, source, settings, system, timedOut, stage⟩ =>
    let (pieces, system) := system.stretch 0 most
    (pieces, ⟨name, terminal, source, settings, system, timedOut, stage⟩)

end Process

end Brainfuck.CommandLine
