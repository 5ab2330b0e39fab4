import Brainfuck.Engine.Clock
import Brainfuck.Engine.System

/-!
# Sessions

A session is one engine in the hands of one host who starts runs, pushes input, asks for stops and
waits. What the two hooks of a run do is laid down beforehand in a `Script`, and time is counted by
the session's own clock: work takes time, and when everybody waits the clock goes on to the next
moment at which something is due. So a session is one schedule of the engine's acts, and all its
answers are determined.

A worker on a thread of its own works only while its host waits for something. A worker that waits
for input does so for `stallMilliseconds` at a time: it takes a byte that arrives within that time
even if it was asked to stop before, and sees that it has to stop only at the end of that time.
-/

namespace Brainfuck

/-- Something that any thread can do with an engine. -/
inductive Deed where
  | push (bytes : List UInt8)
  | stop
  | isRunning

/-- Something that a hook can do. -/
inductive HookDeed where
  | deed (deed : Deed)
  /-- Call the engine that calls the hook. -/
  | call (manner : Manner) (program : Program)
  /-- Have another thread do something later. -/
  | later (milliseconds : Nat) (deeds : List Deed)
  | crash

/-- What the hooks of a run do. -/
structure Script where
  /-- What each call of the input-wanted hook does, in order. -/
  feed : List (List HookDeed)
  /-- Once `feed` is used up, the input-wanted hook asks for a stop. -/
  stopWhenSpent : Bool
  /-- What the output sink does when the output has a certain length. -/
  onOutput : List (Nat × List HookDeed)
  /-- The log of the run is kept. -/
  traced : Bool

/-- What a deed answers. -/
inductive Reply where
  | done
  | running (value : Bool)
  | refused (cause : Fault)

/-- What was seen of a run. -/
structure Record where
  /-- The bytes the output sink was called with. -/
  sink : Array UInt8
  /-- How many bytes the sink was last told that the run has printed. -/
  told : Nat
  /-- The answers to what the hooks did. -/
  replies : Array Reply
  /-- How often the input-wanted hook was called. -/
  wanted : Nat
  /-- The log of the run, the latest record first, if it is kept. -/
  log : List LogRecord

/-- One engine and its host. -/
structure Session where
  system : System
  hasSink : Bool
  hasWanted : Bool
  script : Script
  record : Record
  /-- The call that was spawned last and is not joined. -/
  task : Option Nat
  /-- What other threads will do, and when. -/
  timers : List (Nat × List Deed)
  clock : Clock
  /-- When the worker began to wait for input. -/
  waitStart : Nat

namespace Record

/-- Nothing was seen. -/
def empty : Record :=
  ⟨#[], 0, #[], 0, []⟩

/-- All output of the run, as the sink was last told: what it was last called with. -/
def total (r : Record) : Array UInt8 :=
  r.sink.extract (r.sink.size - r.told) r.sink.size

/-- The sink is called with a byte and told that it is the last of `told`. -/
def print (value : UInt8) (told : Nat) : Record → Record
  | ⟨sink, _, replies, wanted, log⟩ => ⟨sink.push value, told, replies, wanted, log⟩

/-- Adds the answer to a deed. -/
def reply (r : Record) (answer : Reply) : Record :=
  { r with replies := r.replies.push answer }

end Record

namespace Session

/-- How long a `,` waits for a byte before its cycle is over, in milliseconds. -/
def stallMilliseconds : Nat :=
  10

/-- More rounds than any session takes. -/
def rounds : Nat :=
  UInt64.size / 4

/-- A session with a fresh engine. -/
def new (memory : Nat) (hasSink hasWanted : Bool) : Except Fault Session :=
  match System.new memory with
  | .ok system =>
    .ok {
      system, hasSink, hasWanted
      script := ⟨[], false, [], false⟩
      record := .empty
      task := none
      timers := []
      clock := .start
      waitStart := 0 }
  | .error e => .error e

/-- A run goes on and was not asked to stop. -/
def isRunning (s : Session) : Bool :=
  s.system.engine.running

/-- Does a deed. -/
def perform (s : Session) : Deed → Reply × Session
  | .push bytes => (.done, { s with system := (s.system.act (.push bytes)).1 })
  | .stop => (.done, { s with system := (s.system.act .stop).1 })
  | .isRunning => (.running s.isRunning, s)

/-- Does deeds whose answers nobody waits for. -/
def performAll (s : Session) (deeds : List Deed) : Session :=
  deeds.foldl (fun s d => (s.perform d).2) s

/-- Makes a call and returns its number. -/
def request (s : Session) (manner : Manner) (program : Program) : Nat × Session :=
  (s.system.calls.size, { s with system := (s.system.act (.call manner program)).1 })

/-- Does the deeds of a hook inside call number `index`, up to the one that breaks the hook off. -/
def performInHook (index : Nat) (s : Session) : List HookDeed → Session
  | [] => s
  | .deed d :: rest =>
    let (answer, s) := s.perform d
    performInHook index { s with record := s.record.reply answer } rest
  | .later milliseconds deeds :: rest =>
    performInHook index
      { s with
        timers := s.timers ++ [(s.clock.now + milliseconds, deeds)]
        record := s.record.reply .done } rest
  | .call manner program :: rest =>
    let (n, s) := s.request manner program
    let s := { s with system := (s.system.advance n).1 }
    let answer := match s.system.result? n with
      | some (.failed cause) => Reply.refused cause
      | _ => .done
    performInHook index { s with record := s.record.reply answer } rest
  | .crash :: _ => { s with system := (s.system.act (.crash index)).1 }

/-- The input-wanted hook. -/
def onWanted (index : Nat) (s : Session) : Session :=
  if s.hasWanted then
    let s := { s with record := { s.record with wanted := s.record.wanted + 1 } }
    match s.script.feed with
    | deeds :: rest =>
      performInHook index { s with script := { s.script with feed := rest } } deeds
    | [] => if s.script.stopWhenSpent then (s.perform .stop).2 else s
  else s

/-- The output sink, when it is called with the last of `length` bytes. -/
def onPrinted (index : Nat) (value : UInt8) (length : Nat) : Session → Session
  | ⟨system, hasSink, hasWanted, script, record, task, timers, clock, waitStart⟩ =>
    if hasSink then
      let deeds := (script.onOutput.filter (·.1 == length)).flatMap (·.2)
      let record := record.print value length
      performInHook index
        ⟨system, hasSink, hasWanted, script, record, task, timers, clock, waitStart⟩ deeds
    else ⟨system, hasSink, hasWanted, script, record, task, timers, clock, waitStart⟩

/-- Reacts to an event of call number `index`. -/
def observe (index : Nat) (s : Session) (event : Event) : Session :=
  let s := match event with
    | .wanted => s.onWanted index
    | .printed value total => s.onPrinted index value total.size
    | _ => s
  match s.script.traced, event.record? with
  | true, some record => { s with record := { s.record with log := record :: s.record.log } }
  | _, _ => s

/-- Does what other threads have to do by now. -/
def fireTimers (s : Session) : Session :=
  let (due, timers) := s.timers.partition (·.1 ≤ s.clock.now)
  due.foldl (fun s entry => s.performAll entry.2) { s with timers }

/-- Sets the clock, and does what is due if that is a later moment. -/
def setClock (s : Session) (clock : Clock) : Session :=
  if s.clock.now < clock.now then fireTimers { s with clock } else { s with clock }

/-- Goes on to a moment at once, and does what is due then. -/
def moveOn (s : Session) (now : Nat) : Session :=
  fireTimers { s with clock := s.clock.jump now }

/-- Call number `index` does its next piece of work. -/
def tick (index : Nat) (s : Session) : Session :=
  let (system, events) := s.system.proceed index
  let s := events.foldl (observe index) { s with system }
  let s := if s.system.isStarved index then { s with waitStart := s.clock.now } else s
  s.setClock s.clock.tick

/-- Counts silent pieces of work of call number `index`. -/
def spendSilently (index pieces : Nat) (s : Session) : Session :=
  let clock := s.clock.spend pieces
  let clock := match clock.spent, s.system.machine? index with
    | 0, some machine => clock.lap machine
    | _, _ => clock
  s.setClock clock

/-- Call number `index` works. Silent work is done for as much of a millisecond as possible, unless
the log of the run is kept. -/
def work (index : Nat) (s : Session) : Session :=
  if s.script.traced then s.tick index
  else
    let ⟨system, hasSink, hasWanted, script, record, task, timers, clock, waitStart⟩ := s
    let (pieces, system) := system.stretch index clock.left
    let s : Session := ⟨system, hasSink, hasWanted, script, record, task, timers, clock, waitStart⟩
    if 0 < pieces then s.spendSilently index pieces else s.tick index

/-- Call number `index` can do nothing before somebody else does something or time passes. -/
def isBlocked (s : Session) (index : Nat) : Bool :=
  s.system.isStarved index || (s.system.result? index).isSome ||
    s.clock.goesRound && s.isRunning

/-- The moment at which call number `index` sees that it has to stop while it waits for input. -/
def waitEnd? (s : Session) (index : Nat) : Option Nat :=
  if s.system.isStarved index && !s.isRunning then
    let periods := (s.clock.now - s.waitStart) / stallMilliseconds + 1
    some (s.waitStart + periods * stallMilliseconds)
  else none

/-- Lets time pass to the next moment at which something is due, given the end of the wait. -/
def passTime (s : Session) (index? until? : Option Nat) : Option Session :=
  let waitEnd? := index?.bind s.waitEnd?
  match (s.timers.map (·.1) ++ until?.toList ++ waitEnd?.toList).min? with
  | some now =>
    let s := s.moveOn now
    match index? with
    | some index => some (if waitEnd? = some now then s.tick index else s)
    | none => some s
  | none => none

/-- Waits until `goal` holds or the clock shows `until?`, at most for a number of rounds; call
number `index?` works in the meantime. -/
def await (goal : Session → Bool) (index? until? : Option Nat) : (rounds : Nat) → Session → Session
  | 0, s => s
  | rounds + 1, s =>
    if goal s || until?.any (· ≤ s.clock.now) then s
    else
      match index?.filter (!s.isBlocked ·) with
      | some index => await goal index? until? rounds (s.work index)
      | none =>
        match s.passTime index? until? with
        | some s => await goal index? until? rounds s
        | none => s

/-- Runs a program on the host's own thread. What was seen before is forgotten unless a spawned call
is still to be joined, whose script then stays in force as well. -/
def run (s : Session) (program : Program) (script : Script) : Result × Session :=
  let s := if s.task.isNone then { s with script, record := .empty } else s
  let (index, s) := s.request .run program
  let s := s.await (fun s => (s.system.result? index).isSome) (some index) none rounds
  ((s.system.result? index).getD .crashed, s)

/-- Starts a program on a thread of its own. -/
def spawn (s : Session) (program : Program) (script : Script) : Option Fault × Session :=
  let (index, s) := s.request .spawn program
  let s := { s with system := (s.system.advance index).1 }
  match s.system.result? index with
  | some (.failed cause) => (some cause, s)
  | _ =>
    let s := s.await (fun s => s.system.calls[index]?.all Call.isLaunched) (some index) none rounds
    (none, { s with task := some index, script, record := .empty })

/-- Waits, with the spawned call at work, until `goal` holds. -/
def waitFor (s : Session) (goal : Session → Bool) : Session :=
  s.await goal s.task none rounds

/-- Waits for a number of milliseconds. -/
def sleep (s : Session) (milliseconds : Nat) : Session :=
  s.await (fun _ => false) s.task (some (s.clock.now + milliseconds)) rounds

/-- The spawned call has come to its end; `none` without a spawned call. -/
def isFinished (s : Session) : Option Bool :=
  s.task.map fun index => (s.system.result? index).isSome

/-- Waits for the spawned call to come to its end. -/
def waitFinished (s : Session) : Session :=
  s.waitFor fun s => s.isFinished.getD true

/-- Waits for the result of the spawned call; `none` without a spawned call. A call that crashed on
its own thread is reported as a fault. -/
def join (s : Session) : Option Result × Session :=
  match s.task with
  | none => (none, s)
  | some index =>
    let s := s.waitFinished
    let result := (s.system.result? index).getD .crashed
    (some result.joined, { s with task := none })

end Session

end Brainfuck
