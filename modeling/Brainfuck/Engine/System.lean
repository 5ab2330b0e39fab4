import Brainfuck.Engine.Stretch

/-!
# An engine and its calls

An engine runs one program at a time. Its `busy` flag says that a call owns it; its `running` flag
says that the owner may go on. Any number of threads call the engine, push bytes and ask for stops,
in any order: a `System` is the engine with all calls ever made on it, an `Act` is one indivisible
action of one thread, and `System.act` carries it out. A schedule is a list of acts.

A call takes the engine if it is free (`taken`), empties the queue (`cleared`) and sets the running
flag (`launching`), each in an act of its own. When its run is over, in whichever way, it takes back
the running flag (`releasing`) and then the busy flag (`returned`).
-/

namespace Brainfuck

/-- What the threads that use an engine share. -/
structure Engine where
  /-- The number of cells of every run. -/
  memory : Nat
  queue : ByteQueue
  /-- A run goes on and was not asked to stop. -/
  running : Bool
  busy : Bool
  deriving DecidableEq

namespace Engine

/-- An idle engine whose runs get `memory` cells. -/
def new (memory : Nat) : Except Fault Engine :=
  if memory = 0 then .error (.noCells memory)
  else .ok ⟨memory, .empty, false, false⟩

/-- Appends input bytes. -/
def push (e : Engine) (bytes : List UInt8) : Engine :=
  { e with queue := e.queue.push bytes }

/-- Asks the run to stop. -/
def stop (e : Engine) : Engine :=
  { e with running := false }

end Engine

/-- Where a program is carried out: on the thread that makes the call, or on one of its own. -/
inductive Manner where
  | run
  | spawn
  deriving DecidableEq

/-- How far a call has come. -/
inductive Stage where
  | requested
  /-- The engine was busy and the call has returned. -/
  | rejected
  /-- The call owns the engine. -/
  | taken
  /-- The queue is empty. -/
  | cleared
  /-- The running flag is set; a spawning call has returned as soon as its thread exists. -/
  | launching
  /-- The program is carried out. -/
  | active (worker : Worker)
  /-- The run is over; the running flag is still to be taken back. -/
  | lowering (result : Result)
  /-- The running flag is taken back; the busy flag is still to be. -/
  | releasing (result : Result)
  /-- The engine is free of this call. -/
  | returned (result : Result)
  deriving DecidableEq

/-- A call to run a program. -/
structure Call where
  manner : Manner
  program : Program
  stage : Stage
  deriving DecidableEq

/-- A call after an action, the engine after it, and what others saw. -/
structure Call.Moved where
  call : Call
  engine : Engine
  events : List Event

namespace Call

/-- A call that was just made. -/
def request (manner : Manner) (program : Program) : Call :=
  ⟨manner, program, .requested⟩

/-- The next action of a call. -/
def advance (e : Engine) : Call → Moved
  | ⟨manner, program, stage⟩ =>
    match stage with
    | .requested =>
      if e.busy then ⟨⟨manner, program, .rejected⟩, e, []⟩
      else ⟨⟨manner, program, .taken⟩, { e with busy := true }, []⟩
    | .taken => ⟨⟨manner, program, .cleared⟩, { e with queue := e.queue.clear }, []⟩
    | .cleared => ⟨⟨manner, program, .launching⟩, { e with running := true }, []⟩
    | .launching =>
      match Worker.launch program e.memory with
      | .ok worker =>
        ⟨⟨manner, program, .active worker⟩, e, [.started program.size e.memory]⟩
      | .error cause => ⟨⟨manner, program, .lowering (.failed cause)⟩, e, []⟩
    | .active worker =>
      match worker.advance e.running e.queue with
      | ⟨progress, queue, events⟩ =>
        let e := { e with queue }
        match progress with
        | .working worker => ⟨⟨manner, program, .active worker⟩, e, events⟩
        | .ended result => ⟨⟨manner, program, .lowering result⟩, e, events⟩
    | .lowering result => ⟨⟨manner, program, .releasing result⟩, { e with running := false }, []⟩
    | .releasing result => ⟨⟨manner, program, .returned result⟩, { e with busy := false }, []⟩
    | stage => ⟨⟨manner, program, stage⟩, e, []⟩

/-- No thread could be had for the program of a spawning call. -/
def refuse (reason : String) (c : Call) : Call :=
  match c.manner, c.stage with
  | .spawn, .launching => { c with stage := .lowering (.failed (.noThread reason)) }
  | _, _ => c

/-- The call breaks off: before its program starts there is no room for the cells, or later the hook
that its worker is in does. -/
def crash (c : Call) : Call :=
  match c.stage with
  | .launching => { c with stage := .lowering .crashed }
  | .active worker =>
    if worker.inHook then { c with stage := .lowering .crashed } else c
  | _ => c

/-- The result of a call that has come to its end. -/
def result? (c : Call) : Option Result :=
  match c.stage with
  | .rejected => some (.failed .engineBusy)
  | .returned result => some result
  | _ => none

/-- The call's worker waits for input. -/
def isStarved (e : Engine) (c : Call) : Bool :=
  match c.stage with
  | .active worker => worker.isStarved e.queue
  | _ => false

/-- Does at most `most` silent pieces of work at once. The result is how many, and the call after
them. -/
def stretch (running : Bool) (most : Nat) : Call → Nat × Call
  | ⟨manner, program, .active worker⟩ =>
    if running then
      let (unused, worker) := worker.stretch most
      (most - unused, ⟨manner, program, .active worker⟩)
    else (0, ⟨manner, program, .active worker⟩)
  | c => (0, c)

/-- The program is about to be carried out, and there is no room for its cells. -/
def lacksRoom (e : Engine) (c : Call) : Bool :=
  match c.stage with
  | .launching => decide (Tape.mostCells < e.memory)
  | _ => false

/-- The machine of the call's worker. -/
def machine? (c : Call) : Option Machine :=
  match c.stage with
  | .active worker => some worker.machine
  | _ => none

/-- The program is carried out, or about to be. -/
def isLaunched (c : Call) : Bool :=
  match c.stage with
  | .requested | .taken | .cleared => false
  | _ => true

/-- What stands in the place of a call while it moves. -/
def absent : Call :=
  ⟨.run, ⟨#[]⟩, .rejected⟩

end Call

/-- One indivisible action. -/
inductive Act where
  | call (manner : Manner) (program : Program)
  | advance (index : Nat)
  | refuse (index : Nat) (reason : String)
  /-- Call number `index` finds no room for its cells, or the hook inside it breaks off. -/
  | crash (index : Nat)
  | push (bytes : List UInt8)
  | stop
  deriving DecidableEq

/-- An engine with every call made on it. -/
structure System where
  engine : Engine
  calls : Array Call
  deriving DecidableEq

namespace System

/-- A fresh engine. -/
def new (memory : Nat) : Except Fault System :=
  match Engine.new memory with
  | .ok engine => .ok ⟨engine, #[]⟩
  | .error e => .error e

/-- A call, and the calls with its place emptied. -/
@[noinline] def takeOut (calls : Array Call) (index : Nat) (h : index < calls.size) :
    Call × Array Call :=
  (calls[index], calls.set index .absent h)

/-- Call number `index` does its next action. It is taken out of its place meanwhile, so that its
worker is the only owner of the tape and can change it in place. -/
def advance (index : Nat) : System → System × List Event
  | ⟨engine, calls⟩ =>
    if h : index < calls.size then
      let (call, calls) := takeOut calls index h
      let moved := call.advance engine
      (⟨moved.engine, calls.setIfInBounds index moved.call⟩, moved.events)
    else (⟨engine, calls⟩, [])

/-- Taking the call out of its place and putting it back replaces it, and changes nothing else. -/
theorem advance_of_lt (s : System) {index : Nat} (h : index < s.calls.size) :
    s.advance index =
      let moved := s.calls[index].advance s.engine
      (⟨moved.engine, s.calls.set index moved.call⟩, moved.events) := by
  simp [advance, takeOut, h, Array.setIfInBounds]

/-- Carries out an act, and says what others saw of it. -/
def act (s : System) : Act → System × List Event
  | .call manner program => ({ s with calls := s.calls.push (.request manner program) }, [])
  | .advance index => s.advance index
  | .refuse index reason => ({ s with calls := s.calls.modify index (·.refuse reason) }, [])
  | .crash index => ({ s with calls := s.calls.modify index (·.crash) }, [])
  | .push bytes => ({ s with engine := s.engine.push bytes }, [])
  | .stop => ({ s with engine := s.engine.stop }, [])

/-- Carries out a schedule, and collects what others saw. -/
def run (s : System) : List Act → System × List Event
  | [] => (s, [])
  | a :: rest =>
    let (s, seen) := s.act a
    let (s, later) := s.run rest
    (s, seen ++ later)

/-- The result of call number `index`, once it has one. -/
def result? (s : System) (index : Nat) : Option Result :=
  s.calls[index]?.bind Call.result?

/-- Call number `index` does at most `most` silent pieces of work at once. The result is how many,
and the system after them. -/
def stretch (index most : Nat) : System → Nat × System
  | ⟨engine, calls⟩ =>
    if h : index < calls.size then
      let (call, calls) := takeOut calls index h
      let (done, call) := call.stretch engine.running most
      (done, ⟨engine, calls.setIfInBounds index call⟩)
    else (0, ⟨engine, calls⟩)

/-- The machine of call number `index`, while its program is carried out. -/
def machine? (s : System) (index : Nat) : Option Machine :=
  s.calls[index]?.bind Call.machine?

/-- The program of call number `index` is about to be carried out, and there is no room for its
cells. -/
def lacksRoom (s : System) (index : Nat) : Bool :=
  s.calls[index]?.any (·.lacksRoom s.engine)

/-- What call number `index` does next: it goes on, or breaks off if there is no room for its
cells. -/
def nextAct (index : Nat) (s : System) : Act :=
  if s.lacksRoom index then .crash index else .advance index

/-- Call number `index` does what it does next. -/
def proceed (index : Nat) (s : System) : System × List Event :=
  s.act (s.nextAct index)

/-- The worker of call number `index` waits for input. -/
def isStarved (s : System) (index : Nat) : Bool :=
  s.calls[index]?.any (·.isStarved s.engine)

end System

end Brainfuck
