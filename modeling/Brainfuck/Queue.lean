/-!
# Queues of input bytes

Bytes wait in the order in which they were pushed and leave one at a time from the front. A queue
can be reached through several handles: `QueuePool` keeps the queues and says which one each handle
stands for, so that what is pushed through one handle is popped through another on the same queue.
-/

namespace Brainfuck

/-- Bytes that wait to be read. -/
structure ByteQueue where
  /-- The bytes, the next to be read first. -/
  bytes : List UInt8
  deriving DecidableEq

namespace ByteQueue

/-- A queue with nothing in it. -/
def empty : ByteQueue :=
  ⟨[]⟩

/-- Appends bytes. -/
def push (q : ByteQueue) (bytes : List UInt8) : ByteQueue :=
  ⟨q.bytes ++ bytes⟩

/-- The bytes of a text. -/
def textBytes (text : String) : List UInt8 :=
  text.toUTF8.toList

/-- Appends the bytes of a text. -/
def pushText (q : ByteQueue) (text : String) : ByteQueue :=
  q.push (textBytes text)

/-- Takes the first byte, if there is one. -/
def pop (q : ByteQueue) : Option UInt8 × ByteQueue :=
  match q.bytes with
  | [] => (none, q)
  | b :: rest => (some b, ⟨rest⟩)

/-- Drops every byte. -/
def clear (_ : ByteQueue) : ByteQueue :=
  empty

/-- The number of bytes. -/
def length (q : ByteQueue) : Nat :=
  q.bytes.length

/-- Nothing waits. -/
def isEmpty (q : ByteQueue) : Bool :=
  q.bytes.isEmpty

@[simp] theorem bytes_empty : empty.bytes = [] := rfl

@[simp] theorem bytes_push (q : ByteQueue) (bytes : List UInt8) :
    (q.push bytes).bytes = q.bytes ++ bytes := rfl

@[simp] theorem bytes_clear (q : ByteQueue) : q.clear.bytes = [] := rfl

end ByteQueue

/-- Queues that are reached through handles. -/
structure QueuePool where
  queues : Array ByteQueue
  handles : Array Nat

namespace QueuePool

/-- One empty queue with one handle. -/
def single : QueuePool :=
  ⟨#[.empty], #[0]⟩

/-- The queue a handle stands for. -/
def queue (p : QueuePool) (handle : Nat) : ByteQueue :=
  p.queues.getD (p.handles.getD handle 0) .empty

/-- Replaces the queue a handle stands for. -/
def setQueue (p : QueuePool) (handle : Nat) (q : ByteQueue) : QueuePool :=
  { p with queues := p.queues.setIfInBounds (p.handles.getD handle 0) q }

/-- Makes another handle on the queue of `handle` and returns its number. -/
def share (p : QueuePool) (handle : Nat) : Nat × QueuePool :=
  (p.handles.size, { p with handles := p.handles.push (p.handles.getD handle 0) })

/-- Makes a handle on a new queue and returns its number. -/
def fresh (p : QueuePool) : Nat × QueuePool :=
  (p.handles.size,
    { queues := p.queues.push .empty, handles := p.handles.push p.queues.size })

end QueuePool

end Brainfuck
