import Brainfuck.Engine.Worker
import Brainfuck.Word

/-!
# Workers that check every number and every index

Positions, pointers and depths are machine words, and cells and operators are found by their index.
Here each of them is looked at before it is used: a sum or a difference that is no machine word and
an index outside its row break the run off. The searches for a bracket count as the words do that
they keep, from a depth of one at the bracket itself. Everything else is as in
`Brainfuck.Engine.Worker`.
-/

namespace Brainfuck

/-! ## Programs and tapes -/

namespace Program

/-- The search for the `]` of the `[` at `ip`, `depth` loops deep at the position `pos`. -/
def seekExit (p : Program) (ip depth pos : Nat) : Except Failure Nat :=
  if depth = 0 then .ok pos
  else
    match _ : Word.succ pos with
    | .error failure => .error failure
    | .ok next =>
      match _ : p.ops[next]? with
      | none => .error (.fault (.unmatched ip .opening))
      | some (some .openLoop) => do seekExit p ip (← Word.succ depth) next
      | some (some .closeLoop) => do seekExit p ip (← Word.pred depth) next
      | some _ => seekExit p ip depth next
termination_by p.size - pos
decreasing_by
  all_goals
    have hnext := Word.eq_of_succ ‹_›
    have hlt := (Array.getElem?_eq_some_iff.mp ‹p.ops[_]? = some _›).1
    simp only [size]
    omega

/-- The search for the `[` of the `]` at `ip`, `depth` loops deep at the position `pos`. -/
def seekEntry (p : Program) (ip : Nat) : (depth pos : Nat) → Except Failure Nat
  | 0, pos => .ok pos
  | _, 0 => .error (.fault (.unmatched ip .closing))
  | depth, pos + 1 =>
    match p.ops[pos]? with
    | none => .error .crash
    | some (some .closeLoop) => do seekEntry p ip (← Word.succ depth) pos
    | some (some .openLoop) => do seekEntry p ip (← Word.pred depth) pos
    | some _ => seekEntry p ip depth pos

/-- The `]` for the `[` at `ip`. -/
def exitChecked (p : Program) (ip : Nat) : Except Failure Nat :=
  p.seekExit ip 1 ip

/-- The `[` for the `]` at `ip`. -/
def entryChecked (p : Program) (ip : Nat) : Except Failure Nat :=
  p.seekEntry ip 1 ip

end Program

namespace Tape

/-- The current cell. -/
def currentChecked (t : Tape) : Except Failure UInt8 :=
  match t.current? with
  | some cell => .ok cell
  | none => .error .crash

/-- Stores a byte in the current cell. -/
def setChecked (t : Tape) (value : UInt8) : Except Failure Tape :=
  if t.pointer < t.cells.size then .ok (t.set value) else .error .crash

/-- Replaces the value of the current cell. -/
def modifyChecked (t : Tape) (f : UInt8 → UInt8) : Except Failure Tape := do
  t.setChecked (f (← t.currentChecked))

/-- Moves the pointer one cell to the right. -/
def moveRightChecked (t : Tape) (ip : Nat) : Except Failure Tape := do
  let next ← Word.succ t.pointer
  if next < t.cells.size then .ok { t with pointer := next }
  else .error (.fault (.offTape ip t.pointer '>'))

/-- Moves the pointer one cell to the left. -/
def moveLeftChecked (t : Tape) (ip : Nat) : Except Failure Tape :=
  if 0 < t.pointer then do .ok { t with pointer := ← Word.pred t.pointer }
  else .error (.fault (.offTape ip t.pointer '<'))

end Tape

/-! ## Machines -/

namespace Machine

/-- Goes on after the position of a tape and an output. -/
def goOn (tape : Tape) (output : Array UInt8) (ip : Nat) : Except Failure Machine := do
  .ok ⟨tape, output, ← Word.succ ip⟩

/-- Goes past a position that asks for nothing. -/
def skipChecked : Machine → Except Failure Machine
  | ⟨tape, output, ip⟩ => goOn tape output ip

/-- Stores the byte that the `,` at the current position asked for and goes on. -/
def acceptChecked : Machine → UInt8 → Except Failure Machine
  | ⟨tape, output, ip⟩, value => do goOn (← tape.setChecked value) output ip

/-- Prints a byte and goes on. -/
def printChecked : Machine → UInt8 → Except Failure Machine
  | ⟨tape, output, ip⟩, value => goOn tape (output.push value) ip

/-- Carries out an operator at the current position, where the current cell holds `cell`. -/
def performChecked (p : Program) (cell : UInt8) : Machine → Op → Except Failure Machine
  | ⟨tape, output, ip⟩, .right => do goOn (← tape.moveRightChecked ip) output ip
  | ⟨tape, output, ip⟩, .left => do goOn (← tape.moveLeftChecked ip) output ip
  | ⟨tape, output, ip⟩, .increment => do goOn (← tape.modifyChecked (· + 1)) output ip
  | ⟨tape, output, ip⟩, .decrement => do goOn (← tape.modifyChecked (· - 1)) output ip
  | m, .print => m.printChecked cell
  | m, .read => .ok m
  | ⟨tape, output, ip⟩, .openLoop =>
    if cell = 0 then do goOn tape output (← p.exitChecked ip) else goOn tape output ip
  | ⟨tape, output, ip⟩, .closeLoop =>
    if cell = 0 then goOn tape output ip else do goOn tape output (← p.entryChecked ip)

end Machine

/-! ## Workers -/

namespace Worker

/-- What a worker comes to whose machine has done its part or has failed at it. -/
def comeTo (program : Program) (stalled : Bool) (phase : Phase) (queue : ByteQueue)
    (events : List Event) : Except Failure Machine → Advance
  | .ok machine => ⟨.working ⟨program, machine, stalled, phase⟩, queue, events⟩
  | .error failure => ⟨.ended (.ofFailure failure), queue, events⟩

/-- The head of a cycle. -/
def cycleChecked (running : Bool) (queue : ByteQueue) : Worker → Advance
  | ⟨program, machine, stalled, _⟩ =>
    if machine.ip < program.size && running then
      match program.op? machine.ip with
      | none => comeTo program stalled .ready queue [] machine.skipChecked
      | some op =>
        match machine.tape.currentChecked with
        | .error failure => ⟨.ended (.ofFailure failure), queue, []⟩
        | .ok cell =>
          let step := Event.step machine.ip op machine.tape.pointer cell
          match op with
          | .read => ⟨.working ⟨program, machine, stalled, .fetching⟩, queue, [step]⟩
          | .print =>
            let printed := Event.printed cell (machine.output.push cell)
            comeTo program stalled .printing queue [step, printed] (machine.printChecked cell)
          | op => comeTo program stalled .ready queue [step] (machine.performChecked program cell op)
    else
      let outcome := machine.outcome program
      ⟨.ended (.done outcome), queue,
        [.finished outcome.termination machine.ip outcome.output.size]⟩

/-- A `,` takes the first byte of the queue; without one it does what it does anyway. -/
def receiveChecked (queue : ByteQueue) (without : Advance) : Worker → Advance
  | ⟨program, machine, _, _⟩ =>
    match queue.pop with
    | (some value, queue) => comeTo program false .ready queue [] (machine.acceptChecked value)
    | (none, _) => without

/-- One piece of work. -/
def advanceChecked (running : Bool) (queue : ByteQueue) (w : Worker) : Advance :=
  match w.phase with
  | .ready => w.cycleChecked running queue
  | .fetching => w.receiveChecked queue (w.fetch queue)
  | .awaiting => w.receiveChecked queue (w.await queue)
  | .announcing | .printing => w.advance running queue

end Worker

end Brainfuck
