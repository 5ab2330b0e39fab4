import Brainfuck.Engine.System
import Brainfuck.Program.JumpTable

/-!
# Engines with jump tables

The same engine for programs whose brackets were paired beforehand. Where a worker would search its
program for the other end of a loop, it looks it up in the jump table (`Machine.performByTable`);
everything around that is as in `Brainfuck.Engine.Worker` and `Brainfuck.Engine.System`.
-/

namespace Brainfuck

namespace Program

/-- The `]` for the `[` at `ip`, as the table has it. -/
def exitByTable (p : Program) (ip : Nat) : Except Failure Nat :=
  match p.closeOf? ip with
  | some close => .ok close
  | none => .error (.fault (.unmatched ip .opening))

/-- The `[` for the `]` at `ip`, as the table has it. -/
def entryByTable (p : Program) (ip : Nat) : Except Failure Nat :=
  match p.openOf? ip with
  | some start => .ok start
  | none => .error (.fault (.unmatched ip .closing))

end Program

/-- Carries out an operator at the current position and crosses loops by the table. -/
def Machine.performByTable (p : Program) (cell : UInt8) : Machine → Op → Except Failure Machine
  | ⟨tape, output, ip⟩, .openLoop =>
    if cell = 0 then
      match p.exitByTable ip with
      | .ok close => .ok ⟨tape, output, close + 1⟩
      | .error f => .error f
    else .ok ⟨tape, output, ip + 1⟩
  | ⟨tape, output, ip⟩, .closeLoop =>
    if cell = 0 then .ok ⟨tape, output, ip + 1⟩
    else
      match p.entryByTable ip with
      | .ok first => .ok ⟨tape, output, first + 1⟩
      | .error f => .error f
  | m, op => m.perform p cell op

namespace Worker

/-- The head of a cycle, with loops crossed by the table. -/
def cycleByTable (running : Bool) (queue : ByteQueue) : Worker → Advance
  | ⟨program, machine, stalled, _⟩ =>
    if machine.ip < program.size && running then
      match program.op? machine.ip with
      | none => ⟨.working ⟨program, machine.skip, stalled, .ready⟩, queue, []⟩
      | some op =>
        match machine.tape.current? with
        | none => ⟨.ended .crashed, queue, []⟩
        | some cell =>
          let step := Event.step machine.ip op machine.tape.pointer cell
          match op with
          | .read => ⟨.working ⟨program, machine, stalled, .fetching⟩, queue, [step]⟩
          | .print =>
            let machine := machine.print cell
            let printed := Event.printed cell machine.output
            ⟨.working ⟨program, machine, stalled, .printing⟩, queue, [step, printed]⟩
          | op =>
            match machine.performByTable program cell op with
            | .ok machine => ⟨.working ⟨program, machine, stalled, .ready⟩, queue, [step]⟩
            | .error failure => ⟨.ended (.ofFailure failure), queue, [step]⟩
    else
      let outcome := machine.outcome program
      ⟨.ended (.done outcome), queue,
        [.finished outcome.termination machine.ip outcome.output.size]⟩

/-- One piece of work, with loops crossed by the table. -/
def advanceByTable (running : Bool) (queue : ByteQueue) (w : Worker) : Advance :=
  match w.phase with
  | .ready => w.cycleByTable running queue
  | _ => w.advance running queue

end Worker

/-- The next action of a call whose worker crosses loops by the table. -/
def Call.advanceByTable (e : Engine) : Call → Moved
  | ⟨manner, program, .active worker⟩ =>
    match worker.advanceByTable e.running e.queue with
    | ⟨progress, queue, events⟩ =>
      let e := { e with queue }
      match progress with
      | .working worker => ⟨⟨manner, program, .active worker⟩, e, events⟩
      | .ended result => ⟨⟨manner, program, .lowering result⟩, e, events⟩
  | c => c.advance e

namespace System

/-- Carries out an act of an engine whose workers cross loops by the table. -/
def actByTable (s : System) : Act → System × List Event
  | .advance index =>
    match s.calls[index]? with
    | some call =>
      let moved := call.advanceByTable s.engine
      (⟨moved.engine, s.calls.setIfInBounds index moved.call⟩, moved.events)
    | none => (s, [])
  | a => s.act a

/-- Carries out a schedule on an engine whose workers cross loops by the table, and collects what
others saw. -/
def runByTable (s : System) : List Act → System × List Event
  | [] => (s, [])
  | a :: rest =>
    let (s, seen) := s.actByTable a
    let (s, later) := s.runByTable rest
    (s, seen ++ later)

end System

end Brainfuck
