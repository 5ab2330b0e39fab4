import Brainfuck.Machine

/-!
# Programs with their whole input at hand

A machine together with all the bytes it will ever be given. One `step` looks at one position: it
passes a comment, carries out an operator, or finds that the program is over, has failed, or asks
for a byte when none is left.
-/

namespace Brainfuck

/-- A machine and the bytes that its `,` will read. -/
structure Sequential where
  machine : Machine
  input : List UInt8
  deriving DecidableEq

/-- What one step of a sequential machine leads to. -/
inductive Sequential.Step where
  | next (state : Sequential)
  | completed
  | starved
  | failed (failure : Failure)
  deriving DecidableEq

namespace Sequential

/-- One step. -/
def step (p : Program) (s : Sequential) : Step :=
  if s.machine.ip < p.size then
    match p.op? s.machine.ip with
    | none => .next { s with machine := s.machine.skip }
    | some op =>
      match s.machine.tape.current? with
      | none => .failed .crash
      | some cell =>
        match op, s.input with
        | .read, [] => .starved
        | .read, value :: rest => .next ⟨s.machine.accept value, rest⟩
        | op, input =>
          match s.machine.perform p cell op with
          | .ok machine => .next ⟨machine, input⟩
          | .error failure => .failed failure
  else .completed

end Sequential

end Brainfuck
