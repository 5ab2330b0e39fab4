import Brainfuck.Log
import Brainfuck.Machine

/-!
# What a run lets others see

A run tells of itself in events: the records of its log, the calls of its two hooks, nothing else.
The output sink is called for every `.`, and the input-wanted hook when a `,` starts to wait.
-/

namespace Brainfuck

/-- Something a run does that others see. -/
inductive Event where
  /-- The run begins, with a program of `length` positions and `memory` cells. -/
  | started (length memory : Nat)
  /-- A cycle reaches an operator; `cell` is the cell under the pointer before it. -/
  | step (ip : Nat) (op : Op) (pointer : Nat) (cell : UInt8)
  | starved (ip : Nat)
  | wanted
  /-- The output sink is called with a byte and all bytes up to it. -/
  | printed (value : UInt8) (total : Array UInt8)
  | finished (termination : Termination) (ip outputLength : Nat)
  deriving DecidableEq

namespace Event

/-- A cycle has reached an operator. -/
def isStep : Event → Bool
  | .step _ _ _ _ => true
  | _ => false

/-- The target of the records of a run. -/
def target : String :=
  "jbf::engine"

/-- The log record of an event; calls of hooks are not logged. -/
def record? : Event → Option LogRecord
  | .started length memory =>
    some ⟨.debug, target, "run started",
      [("len", .number length), ("memory_size", .number memory)]⟩
  | .step ip op pointer cell =>
    some ⟨.trace, target, "step",
      [("ip", .number ip), ("op", .char op.toChar), ("ptr", .number pointer),
        ("cell", .number cell.toNat)]⟩
  | .starved ip =>
    some ⟨.debug, target, "input queue empty; waiting for input", [("ip", .number ip)]⟩
  | .wanted => none
  | .printed _ _ => none
  | .finished termination ip outputLength =>
    some ⟨.debug, target, "run finished",
      [("termination", .text termination.name), ("ip", .number ip),
        ("output_len", .number outputLength)]⟩

end Event

end Brainfuck
