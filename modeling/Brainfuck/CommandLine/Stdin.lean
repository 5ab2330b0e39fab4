import Brainfuck.Log

/-!
# Forwarding standard input

Standard input is copied into the input queue of the engine, one read at a time. A read fills the
front of a buffer that is used again and again, so only as many bytes as were just read may be
passed on. A read of no bytes is the end, an interrupted read is tried again, and any other failure
is noted and ends the forwarding.
-/

namespace Brainfuck.CommandLine

/-- What a read gives. -/
inductive Reading where
  /-- Bytes; none at the end of the input. -/
  | data (bytes : List UInt8)
  /-- Nothing, since the read was interrupted. -/
  | interrupted
  /-- Nothing, for another reason. -/
  | failed (reason : String)
  deriving DecidableEq

/-- What is to be done after a read. -/
inductive Forward where
  /-- Pass on bytes and read again. -/
  | push (bytes : List UInt8)
  /-- Read again. -/
  | again
  /-- Read no more. -/
  | over (note : Option LogRecord)

/-- The target of the log records of the command `run`. -/
def runTarget : String :=
  "jbf::commands::run"

namespace Forward

/-- The most bytes that a read can give. -/
def capacity : Nat :=
  1024

/-- A buffer that nothing was read into. -/
def emptyBuffer : List UInt8 :=
  List.replicate capacity 0

/-- The buffer after a read of `bytes`. -/
def fill (buffer bytes : List UInt8) : List UInt8 :=
  bytes ++ buffer.drop bytes.length

/-- What is to be done after a read, and the buffer after it. -/
def ofReading (buffer : List UInt8) : Reading → Forward × List UInt8
  | .data [] => (.over none, buffer)
  | .data bytes =>
    let buffer := fill buffer bytes
    (.push (buffer.take bytes.length), buffer)
  | .interrupted => (.again, buffer)
  | .failed reason =>
    let record := ⟨.debug, runTarget, "stopped forwarding stdin", [("error", .text reason)]⟩
    (.over (some record), buffer)

/-- Everything that is done for a sequence of reads. -/
def all (buffer : List UInt8) : List Reading → List Forward
  | [] => []
  | reading :: rest =>
    match ofReading buffer reading with
    | (.over note, _) => [.over note]
    | (step, buffer) => step :: all buffer rest

/-- The bytes that are passed on. -/
def pushed : Forward → List UInt8
  | .push bytes => bytes
  | _ => []

end Forward

/-- The reads of an input that is all there, at most `left` of them before the end. -/
def Reading.ofBytes : (left : Nat) → List UInt8 → List Reading
  | 0, _ | _, [] => [.data []]
  | left + 1, bytes =>
    .data (bytes.take Forward.capacity) :: ofBytes left (bytes.drop Forward.capacity)

end Brainfuck.CommandLine
