import Brainfuck.Machine

/-!
# Structured programs

A text whose brackets match is a sequence of operators and loops, and a loop has such a sequence as
its body. `Block` is that tree, with the position of every operator in the text; `Block.ofProgram?`
finds it. `Block.Run` says what a block does, by rules that know nothing of positions and jumps: a
loop is over when the current cell is zero and otherwise carries out its body and starts again.
-/

namespace Brainfuck

/-- A sequence of operators and loops. -/
inductive Block where
  | done
  /-- An operator that is no bracket, at a position, and what follows. -/
  | single (op : Op) (pos : Nat) (rest : Block)
  /-- A loop between the positions of its brackets, and what follows. -/
  | loop (start : Nat) (body : Block) (close : Nat) (rest : Block)
  deriving DecidableEq

namespace Block

/-- The block that operators from position `pos` on spell up to the first bracket that closes a loop
opened before; behind it, for each such bracket, its position and the block that follows it. -/
def parseFrom (pos : Nat) : List (Option Op) → Option (Block × List (Nat × Block))
  | [] => some (.done, [])
  | o :: ops =>
    match parseFrom (pos + 1) ops with
    | none => none
    | some (block, outer) =>
      match o, outer with
      | none, _ => some (block, outer)
      | some .closeLoop, _ => some (.done, (pos, block) :: outer)
      | some .openLoop, (close, rest) :: outer => some (.loop pos block close rest, outer)
      | some .openLoop, [] => none
      | some op, _ => some (.single op pos block, outer)

/-- The block that a program spells, if its brackets match. -/
def ofProgram? (p : Program) : Option Block :=
  match parseFrom 0 p.ops.toList with
  | some (block, []) => some block
  | _ => none

/-- What a block works on. -/
structure State where
  tape : Tape
  input : List UInt8
  output : Array UInt8
  deriving DecidableEq

/-- How a block ends. -/
inductive Ending where
  | finished (state : State)
  | failed (cause : Fault)
  /-- At the `,` at a position, for which no byte is left. -/
  | starved (pos : Nat) (state : State)
  deriving DecidableEq

/-- What a single operator other than a bracket does. -/
def State.apply (s : State) (pos : Nat) : Op → Ending
  | .right =>
    match s.tape.moveRight pos with
    | .ok tape => .finished { s with tape }
    | .error e => .failed e
  | .left =>
    match s.tape.moveLeft pos with
    | .ok tape => .finished { s with tape }
    | .error e => .failed e
  | .increment => .finished { s with tape := s.tape.increment }
  | .decrement => .finished { s with tape := s.tape.decrement }
  | .print => .finished { s with output := s.output.push (s.tape.current?.getD 0) }
  | .read =>
    match s.input with
    | value :: input => .finished { s with tape := s.tape.set value, input }
    | [] => .starved pos s
  | .openLoop | .closeLoop => .finished s

/-- The block, started in a state, ends in this way. -/
inductive Run : Block → State → Ending → Prop where
  | done {s : State} : Run .done s (.finished s)
  | single {op : Op} {pos : Nat} {rest : Block} {s t : State} {e : Ending}
      (first : s.apply pos op = .finished t) (later : Run rest t e) : Run (.single op pos rest) s e
  | singleEnds {op : Op} {pos : Nat} {rest : Block} {s : State} {e : Ending}
      (first : s.apply pos op = e) (ends : ∀ t, e ≠ .finished t) : Run (.single op pos rest) s e
  | loopOver {start close : Nat} {body rest : Block} {s : State} {e : Ending}
      (zero : s.tape.current? = some 0) (later : Run rest s e) :
      Run (.loop start body close rest) s e
  | loopAgain {start close : Nat} {body rest : Block} {s t : State} {e : Ending}
      (nonzero : s.tape.current? ≠ some 0) (once : Run body s (.finished t))
      (later : Run (.loop start body close rest) t e) : Run (.loop start body close rest) s e
  | loopEnds {start close : Nat} {body rest : Block} {s : State} {e : Ending}
      (nonzero : s.tape.current? ≠ some 0) (once : Run body s e) (ends : ∀ t, e ≠ .finished t) :
      Run (.loop start body close rest) s e

end Block

end Brainfuck
