import Brainfuck.Machine

/-!
# Clocks

A schedule that is laid down beforehand has no time of its own, so its clock counts work: so many
pieces of work make a millisecond. A worker that does only silent work and comes back to a state it
was in before goes round for ever. The clock notices that by looking at the machine at the end of a
millisecond and comparing it with the one of an earlier millisecond, which it keeps for longer and
longer; then whatever is left of the time until something else happens can pass at once.
-/

namespace Brainfuck

/-- A clock. -/
structure Clock where
  now : Nat
  /-- The pieces of work done in the current millisecond. -/
  spent : Nat
  /-- The milliseconds since the worker last did something that was not silent. -/
  laps : Nat
  /-- The machine at the end of one of these milliseconds. -/
  mark : Option Machine
  /-- The machine has come back to the state that is kept. -/
  goesRound : Bool

namespace Clock

/-- The pieces of work that make a millisecond. -/
def workPerMillisecond : Nat :=
  200000

/-- A clock at the start. -/
def start : Clock :=
  ⟨0, 0, 0, none, false⟩

/-- The work that is left in the current millisecond. -/
def left (c : Clock) : Nat :=
  workPerMillisecond - c.spent

/-- Counts pieces of work. -/
def spend (c : Clock) (pieces : Nat) : Clock :=
  if c.spent + pieces < workPerMillisecond then { c with spent := c.spent + pieces }
  else { c with now := c.now + 1, spent := 0 }

/-- Counts a piece of work that is not silent. -/
def tick (c : Clock) : Clock :=
  { c with laps := 0, mark := none, goesRound := false }.spend 1

/-- Looks at the machine at the end of a silent millisecond. The machine that is kept changes when
the number of milliseconds is a power of two. -/
def lap (c : Clock) (m : Machine) : Clock :=
  if c.mark = some m then { c with goesRound := true }
  else
    let laps := c.laps + 1
    { c with laps, mark := if laps &&& (laps - 1) = 0 then some m else c.mark }

/-- Goes on to a moment at once. -/
def jump (c : Clock) (now : Nat) : Clock :=
  { c with now, spent := 0, goesRound := false }

end Clock

end Brainfuck
