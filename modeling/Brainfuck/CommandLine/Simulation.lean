import Brainfuck.CommandLine.Invocation
import Brainfuck.Engine.Session

/-!
# Invocations under a fixed schedule

An invocation with all its surroundings given beforehand: the files, the environment, what standard
input will say, and when an interrupt comes. Its threads take turns by one rule. The worker works;
when it waits for input, the next read of standard input is forwarded; when there is none, the next
thing that is due happens. A worker that is interrupted while it waits sees that it has to stop only
at the end of its wait, and by then its time can be up as well. Work takes time, and at the end of
every millisecond all of standard input is forwarded and what is due happens. A run that waits for
something that never comes, or goes round for ever, has no transcript.
-/

namespace Brainfuck.CommandLine

/-- What an invocation leaves behind. -/
structure Transcript where
  exit : Nat
  stdout : Array UInt8
  stderr : String

/-- An invocation on its way. -/
structure Simulation where
  process : Process
  filter : LogFilter
  /-- What stands for the time in the lines of the log. -/
  stamp : String
  /-- What was written to standard output. -/
  stdout : Array UInt8
  /-- What was written to standard error. -/
  stderr : String
  /-- What is still to be done about standard input. -/
  stdin : List Forward
  /-- When an interrupt comes. -/
  interruptAfter : Option Nat
  clock : Clock

/-- What is to be read on standard error of what is written, when the log goes through a filter. -/
def stderrOf (filter : LogFilter) (stamp : String) (written : List Emission) : String :=
  written.foldl (fun text e =>
    match e with
    | .stdout _ => text
    | .stderr more => text ++ more
    | .log record => if filter.lets record then text ++ LogFilter.line stamp record else text) ""

namespace Simulation

/-- More rounds than any invocation takes. -/
def rounds : Nat :=
  UInt64.size / 4

/-- Writes. -/
def emit (s : Simulation) : Emission → Simulation
  | .stdout value => { s with stdout := s.stdout.push value }
  | .stderr text => { s with stderr := s.stderr ++ text }
  | .log record =>
    if s.filter.lets record then
      { s with stderr := s.stderr ++ LogFilter.line s.stamp record }
    else s

/-- Carries out a move. -/
def move (m : Move) : Simulation → Simulation
  | ⟨process, filter, stamp, stdout, stderr, stdin, interruptAfter, clock⟩ =>
    let (process, written) := process.step m
    written.foldl emit ⟨process, filter, stamp, stdout, stderr, stdin, interruptAfter, clock⟩

/-- Forwards the next read of standard input. -/
def forward (s : Simulation) : Forward → Simulation
  | .push bytes => s.move (.input bytes)
  | .again => s
  | .over (some record) => s.move (.note record)
  | .over none => s

/-- The interrupt is due. -/
def interruptIsDue (s : Simulation) : Bool :=
  s.interruptAfter.any (· ≤ s.stdout.size)

/-- Interrupts. -/
def interrupt (s : Simulation) : Simulation :=
  { s with interruptAfter := none }.move .interrupt

/-- Lets the time be up. -/
def timeOut (s : Simulation) (now : Nat) : Simulation :=
  ({ s with clock := s.clock.jump now }.move .expire).move .stopForTimeout

/-- Interrupts a worker that has just begun to wait for input, and lets the time be up if that is
due before the end of the wait. -/
def interruptWait (s : Simulation) : Simulation :=
  let s := s.interrupt
  let waitEnd := s.clock.now + Session.stallMilliseconds
  match s.process.settings.timeoutMs with
  | some milliseconds =>
    if milliseconds < waitEnd then s.timeOut (max s.clock.now milliseconds) else s
  | none => s

/-- Forwards all of standard input. -/
def forwardAll (s : Simulation) : Simulation :=
  s.stdin.foldl forward { s with stdin := [] }

/-- Sets the clock. At a later moment the others get their turn. -/
def setClock (s : Simulation) (clock : Clock) : Simulation :=
  if s.clock.now < clock.now then
    let s := { s with clock }.forwardAll
    let s := if s.interruptIsDue then s.interrupt else s
    if s.process.settings.timeoutMs.any (· ≤ clock.now) then s.timeOut clock.now else s
  else { s with clock }

/-- The worker does a piece of work. -/
def tick (s : Simulation) : Simulation :=
  let s := s.move .work
  s.setClock s.clock.tick

/-- Counts silent pieces of work. -/
def spendSilently (pieces : Nat) (s : Simulation) : Simulation :=
  let clock := s.clock.spend pieces
  let clock := match clock.spent, s.process.system.machine? 0 with
    | 0, some machine => clock.lap machine
    | _, _ => clock
  s.setClock clock

/-- The steps of the run are shown in the log. -/
def showsSteps (s : Simulation) : Bool :=
  (Event.step 0 .right 0 0).record?.any s.filter.lets

/-- The worker works. Silent work is done for as much of a millisecond as possible, unless it is
shown in the log. -/
def work (s : Simulation) : Simulation :=
  if s.showsSteps then s.tick
  else
    let ⟨process, filter, stamp, stdout, stderr, stdin, interruptAfter, clock⟩ := s
    let (pieces, process) := process.stretch clock.left
    let s : Simulation := ⟨process, filter, stamp, stdout, stderr, stdin, interruptAfter, clock⟩
    if 0 < pieces then s.spendSilently pieces else s.tick

/-- Something happens while the worker waits for input or goes round; `none` if nothing can. -/
def wait (s : Simulation) : Option Simulation :=
  match s.stdin with
  | next :: rest => some ({ s with stdin := rest }.forward next)
  | [] =>
    if s.interruptIsDue then some (if s.process.isStarved then s.interruptWait else s.interrupt)
    else
      s.process.settings.timeoutMs.map fun milliseconds => s.timeOut (max s.clock.now milliseconds)

/-- Goes on to the end of the run. -/
def runToEnd : (rounds : Nat) → Simulation → Option Simulation
  | 0, _ => none
  | rounds + 1, s =>
    if s.process.runIsOver then some s
    else if s.process.isStarved || s.clock.goesRound && s.process.system.engine.running then
      match s.wait with
      | some s => runToEnd rounds s
      | none => none
    else runToEnd rounds s.work

/-- What the invocation leaves behind. -/
def transcript? (s : Simulation) : Option Transcript :=
  s.process.exit?.map fun exit => ⟨exit, s.stdout, s.stderr⟩

end Simulation

namespace Surroundings

/-- The invocation on its way, whose engine is taken for the run. -/
def simulation (s : Surroundings) (process : Process) (written : List Emission) : Simulation :=
  let start : Simulation := {
    process
    filter := s.filter
    stamp := s.stamp
    stdout := (stdoutOf written).toArray
    stderr := stderrOf s.filter s.stamp written
    stdin := s.forwards
    interruptAfter := s.interruptAfter
    clock := .start }
  match s.refusal with
  | some reason => start.move (.refuse reason)
  | none => start

/-- What an invocation leaves behind in its surroundings; nothing if it never ends. -/
def transcript (s : Surroundings) : Option Transcript :=
  match s.opening with
  | .over exit written =>
    some ⟨exit, (stdoutOf written).toArray, stderrOf s.filter s.stamp written⟩
  | .running process written =>
    ((s.simulation process written).runToEnd Simulation.rounds).bind fun s =>
      ((s.move .join).move .conclude).transcript?

end Surroundings

end Brainfuck.CommandLine
