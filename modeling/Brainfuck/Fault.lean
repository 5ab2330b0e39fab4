/-!
# Faults

What an engine reports when it cannot do what it is asked for. A `Fault` is the cause; its wording
is `Fault.message`, and `Fault.ip?` is the position in the program that it points at, when there is
one. A `Failure` is a fault or a crash: a computation that breaks off without a report.
-/

namespace Brainfuck

/-- A bracket that has no partner. -/
inductive Bracket where
  | opening
  | closing
  deriving DecidableEq

/-- The bracket as it stands in a message. -/
def Bracket.quoted : Bracket → String
  | .opening => "'['"
  | .closing => "']'"

/-- Why an engine cannot be had, or why a run fails. -/
inductive Fault where
  /-- A tape needs at least one cell. -/
  | noCells (size : Nat)
  /-- The move `op` would take the pointer off the tape. -/
  | offTape (ip pointer : Nat) (op : Char)
  /-- The bracket at `ip` has no partner. -/
  | unmatched (ip : Nat) (bracket : Bracket)
  /-- Another run owns the engine. -/
  | engineBusy
  /-- No thread can be had for the run. -/
  | noThread (reason : String)
  /-- The run broke off on its own thread. -/
  | workerLost
  deriving DecidableEq

namespace Fault

/-- The text of a fault. -/
def message : Fault → String
  | .noCells size => s!"Memory size must be greater than 0 (got {size})"
  | .offTape ip pointer op =>
    s!"Pointer out of bounds at instruction {ip} (ptr={pointer}, op='{op}')"
  | .unmatched ip bracket => s!"Unmatched bracket {bracket.quoted} at instruction {ip}"
  | .engineBusy => "Engine is already running a program"
  | .noThread reason => s!"Failed to spawn engine worker thread: {reason}"
  | .workerLost => "Engine worker thread panicked"

/-- The position a fault points at. -/
def ip? : Fault → Option Nat
  | .offTape ip _ _ => some ip
  | .unmatched ip _ => some ip
  | _ => none

/-- The reason given by whoever refused a thread. -/
def reason? : Fault → Option String
  | .noThread reason => some reason
  | _ => none

end Fault

/-- How a computation fails. -/
inductive Failure where
  /-- With a fault that its caller gets to see. -/
  | fault (cause : Fault)
  | crash
  deriving DecidableEq

end Brainfuck
