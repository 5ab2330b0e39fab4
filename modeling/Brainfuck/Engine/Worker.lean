import Brainfuck.Engine.Event
import Brainfuck.Queue

/-!
# The worker of a run

A worker carries out one program. It goes from cycle to cycle: at the head of a cycle it looks at
the running flag and, if it may go on, carries out the operator at its position. What it shares with
other threads, the flag and the queue of input bytes, it touches at single moments, and `Phase`
names the places between them where others can get a word in: `advance` is one uninterrupted piece
of work from one such place to the next.

A `,` takes the first byte of the queue. When there is none it announces once that it waits
(`stalled` remembers that), then waits for a byte for a while; when none arrives in that time the
cycle is over, and the next cycle comes back to the same `,`.
-/

namespace Brainfuck

/-- Where in a cycle a worker is. -/
inductive Phase where
  /-- At the head of a cycle. -/
  | ready
  /-- At a `,`, about to look into the queue. -/
  | fetching
  /-- At a `,` that found no byte, inside the input-wanted hook. -/
  | announcing
  /-- At a `,` that found no byte, waiting for one. -/
  | awaiting
  /-- Inside the output sink. -/
  | printing
  deriving DecidableEq

/-- A worker. -/
structure Worker where
  program : Program
  machine : Machine
  /-- The `,` at this position has announced that it waits. -/
  stalled : Bool
  phase : Phase
  deriving DecidableEq

/-- A worker after a piece of work, or the end of its run. -/
inductive Progress where
  | working (worker : Worker)
  | ended (result : Result)

/-- What a piece of work leads to. -/
structure Advance where
  progress : Progress
  queue : ByteQueue
  events : List Event

namespace Worker

/-- A worker at the start of a program. -/
def launch (program : Program) (memory : Nat) : Except Fault Worker :=
  match Machine.start memory with
  | .ok machine => .ok ⟨program, machine, false, .ready⟩
  | .error e => .error e

/-- The head of a cycle: goes on, unless the program is over or the run is asked to stop. -/
def cycle (running : Bool) (queue : ByteQueue) : Worker → Advance
  | ⟨program, machine, stalled, _⟩ =>
    if machine.ip < program.size && running then
      match program.op? machine.ip with
      | none => ⟨.working ⟨program, machine.skip, stalled, .ready⟩, queue, []⟩
      | some op =>
        match machine.tape.current? with
        | none => ⟨.ended .crashed, queue, []⟩
        | some cell =>
          let step := Event.step machine.ip op machine.tape.pointer cell
          match op with
          | .read => ⟨.working ⟨program, machine, stalled, .fetching⟩, queue, [step]⟩
          | .print =>
            let machine := machine.print cell
            let printed := Event.printed cell machine.output
            ⟨.working ⟨program, machine, stalled, .printing⟩, queue, [step, printed]⟩
          | op =>
            match machine.perform program cell op with
            | .ok machine => ⟨.working ⟨program, machine, stalled, .ready⟩, queue, [step]⟩
            | .error failure => ⟨.ended (.ofFailure failure), queue, [step]⟩
    else
      let outcome := machine.outcome program
      ⟨.ended (.done outcome), queue,
        [.finished outcome.termination machine.ip outcome.output.size]⟩

/-- A `,` gets a byte. -/
def receive (value : UInt8) : Worker → Worker
  | ⟨program, machine, _, _⟩ => ⟨program, machine.accept value, false, .ready⟩

/-- The worker in another phase. -/
def enter (phase : Phase) : Worker → Worker
  | ⟨program, machine, stalled, _⟩ => ⟨program, machine, stalled, phase⟩

/-- A `,` looks into the queue. The first time it finds nothing it announces that. -/
def fetch (queue : ByteQueue) (w : Worker) : Advance :=
  match queue.pop with
  | (some value, queue) => ⟨.working (w.receive value), queue, []⟩
  | (none, queue) =>
    if w.stalled then ⟨.working (w.enter .awaiting), queue, []⟩
    else
      match w with
      | ⟨program, machine, _, _⟩ =>
        let ip := machine.ip
        ⟨.working ⟨program, machine, true, .announcing⟩, queue, [.starved ip, .wanted]⟩

/-- A `,` is done waiting: with the first byte of the queue, or because there is still none. -/
def await (queue : ByteQueue) (w : Worker) : Advance :=
  match queue.pop with
  | (some value, queue) => ⟨.working (w.receive value), queue, []⟩
  | (none, queue) => ⟨.working (w.enter .ready), queue, []⟩

/-- One piece of work. -/
def advance (running : Bool) (queue : ByteQueue) (w : Worker) : Advance :=
  match w.phase with
  | .ready => w.cycle running queue
  | .fetching => w.fetch queue
  | .announcing => ⟨.working (w.enter .awaiting), queue, []⟩
  | .awaiting => w.await queue
  | .printing => ⟨.working (w.enter .ready), queue, []⟩

/-- The worker waits: there is no byte for its `,`. -/
def isStarved (queue : ByteQueue) (w : Worker) : Bool :=
  w.phase == .awaiting && queue.isEmpty

/-- The worker is inside a hook. -/
def inHook (w : Worker) : Bool :=
  w.phase == .announcing || w.phase == .printing

end Worker

end Brainfuck
