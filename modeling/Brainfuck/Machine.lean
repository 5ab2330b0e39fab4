import Brainfuck.Program
import Brainfuck.Tape

/-!
# The machine

The state of a program that is being carried out: its tape, what it has printed, and the position it
has reached. `perform` says what each operator does to that state, apart from where the bytes for
`,` come from: a byte that has arrived is stored with `accept`. Both a program with its whole input
at hand (`Brainfuck.Machine.Sequential`) and a run that shares a queue with other threads
(`Brainfuck.Engine.Worker`) move a machine only with the operations of this file.
-/

namespace Brainfuck

/-- The state of a program that is being carried out. -/
structure Machine where
  tape : Tape
  output : Array UInt8
  ip : Nat
  deriving DecidableEq

/-- Why a run ended without a fault. -/
inductive Termination where
  | completed
  /-- The run was asked to stop before the end of the program. -/
  | cancelled
  deriving DecidableEq

/-- The name of a termination. -/
def Termination.name : Termination → String
  | .completed => "Completed"
  | .cancelled => "Cancelled"

/-- What a run that did not fail leaves behind. -/
structure Outcome where
  output : Array UInt8
  termination : Termination
  tape : Tape
  deriving DecidableEq

/-- How a run ended: with an outcome, with a fault, or by breaking off. -/
inductive Result where
  /-- At the end of the program or at a stop. -/
  | done (outcome : Outcome)
  | failed (cause : Fault)
  | crashed
  deriving DecidableEq

/-- The end of a run that fails. -/
def Result.ofFailure : Failure → Result
  | .fault cause => .failed cause
  | .crash => .crashed

/-- The result as it is handed to whoever waits for a run on a thread of its own: that the run broke
off is reported as a fault. -/
def Result.joined : Result → Result
  | .crashed => .failed .workerLost
  | r => r

namespace Outcome

/-- The run was stopped. -/
def isCancelled (o : Outcome) : Bool :=
  o.termination == .cancelled

/-- The output as text, one character for each byte. -/
def text (o : Outcome) : String :=
  String.ofList (o.output.toList.map fun b => Char.ofNat b.toNat)

end Outcome

namespace Machine

/-- A machine with `memory` zero cells at the start of its program. -/
def start (memory : Nat) : Except Fault Machine :=
  match Tape.blank memory with
  | .ok tape => .ok ⟨tape, #[], 0⟩
  | .error e => .error e

/-- Goes past a position that asks for nothing. -/
def skip : Machine → Machine
  | ⟨tape, output, ip⟩ => ⟨tape, output, ip + 1⟩

/-- Stores the byte that the `,` at the current position asked for and goes on. -/
def accept : Machine → UInt8 → Machine
  | ⟨tape, output, ip⟩, value => ⟨tape.set value, output, ip + 1⟩

/-- Prints a byte and goes on. -/
def print : Machine → UInt8 → Machine
  | ⟨tape, output, ip⟩, value => ⟨tape, output.push value, ip + 1⟩

/-- Carries out an operator at the current position, where the current cell holds `cell`. A loop
that is skipped goes on after its `]`, one that is repeated goes on after its `[`. The machine stays
where it is at a `,`, which is done once it gets a byte. -/
def perform (p : Program) (cell : UInt8) : Machine → Op → Except Failure Machine
  | ⟨tape, output, ip⟩, .right =>
    match tape.moveRight ip with
    | .ok tape => .ok ⟨tape, output, ip + 1⟩
    | .error e => .error (.fault e)
  | ⟨tape, output, ip⟩, .left =>
    match tape.moveLeft ip with
    | .ok tape => .ok ⟨tape, output, ip + 1⟩
    | .error e => .error (.fault e)
  | ⟨tape, output, ip⟩, .increment => .ok ⟨tape.increment, output, ip + 1⟩
  | ⟨tape, output, ip⟩, .decrement => .ok ⟨tape.decrement, output, ip + 1⟩
  | m, .print => .ok (m.print cell)
  | m, .read => .ok m
  | ⟨tape, output, ip⟩, .openLoop =>
    if cell = 0 then
      match p.loopExit ip with
      | .ok close => .ok ⟨tape, output, close + 1⟩
      | .error f => .error f
    else .ok ⟨tape, output, ip + 1⟩
  | ⟨tape, output, ip⟩, .closeLoop =>
    if cell = 0 then .ok ⟨tape, output, ip + 1⟩
    else
      match p.loopEntry ip with
      | .ok first => .ok ⟨tape, output, first + 1⟩
      | .error f => .error f

/-- What the machine leaves behind when its run ends here. -/
def outcome (p : Program) (m : Machine) : Outcome where
  output := m.output
  termination := if p.size ≤ m.ip then .completed else .cancelled
  tape := m.tape

end Machine

end Brainfuck
