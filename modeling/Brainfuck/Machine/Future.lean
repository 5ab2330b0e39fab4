import Brainfuck.Machine

/-!
# What a run comes to

The input of a run may go on forever: a `ByteStream` gives the byte at each place, up to its end if
it has one, and `take` the bytes of a beginning. On such input a run returns a result, waits at a `,`
for a byte that does not come, or goes on without end, and these are the cases of `Future`. A
position that it names can be moved (`Future.relocate`), as when the same operators stand elsewhere
in a text.
-/

namespace Brainfuck

/-- Bytes that arrive one after the other, perhaps without end. -/
structure ByteStream where
  /-- The byte at a place, if the stream goes so far. -/
  byte? : Nat → Option UInt8
  closed : ∀ {i : Nat}, byte? i = none → byte? (i + 1) = none

namespace ByteStream

/-- The stream of these bytes. -/
def ofList (bytes : List UInt8) : ByteStream where
  byte? i := bytes[i]?
  closed h := List.getElem?_eq_none (Nat.le_succ_of_le (List.getElem?_eq_none_iff.mp h))

/-- The first bytes of a stream, fewer if it ends before. -/
def take (stream : ByteStream) (count : Nat) : List UInt8 :=
  (List.range count).filterMap stream.byte?

/-- What follows the first bytes of a stream. -/
def drop (stream : ByteStream) (count : Nat) : ByteStream where
  byte? i := stream.byte? (count + i)
  closed := stream.closed

variable (stream : ByteStream)

@[simp] theorem take_zero : stream.take 0 = [] := rfl

theorem take_add (m n : Nat) : stream.take (m + n) = stream.take m ++ (stream.drop m).take n := by
  rw [take, List.range_add, List.filterMap_append, List.filterMap_map]
  rfl

theorem take_succ (n : Nat) : stream.take (n + 1) = stream.take n ++ (stream.byte? n).toList := by
  rw [take, List.range_succ, List.filterMap_append, take]
  cases h : stream.byte? n <;> simp [h]

theorem length_take_le (n : Nat) : (stream.take n).length ≤ n := by
  have hle := List.length_filterMap_le stream.byte? (List.range n)
  rwa [List.length_range] at hle

variable {stream} {m n : Nat}

/-- Of two beginnings of a stream the longer continues the shorter. -/
theorem take_prefix (stream : ByteStream) (h : m ≤ n) : stream.take m <+: stream.take n := by
  obtain ⟨k, rfl⟩ := Nat.exists_eq_add_of_le h
  rw [take_add]
  exact List.prefix_append ..

theorem byte?_of_le (hend : stream.byte? m = none) (h : m ≤ n) : stream.byte? n = none := by
  induction h with
  | refl => exact hend
  | step _ ih => exact stream.closed ih

/-- A stream that has come to its end goes no further. -/
theorem take_of_le (hend : stream.byte? m = none) (h : m ≤ n) : stream.take n = stream.take m := by
  induction h with
  | refl => rfl
  | step hle ih => rw [take_succ, byte?_of_le hend hle, ih, Option.toList_none, List.append_nil]

theorem getElem?_take (stream : ByteStream) (n i : Nat) :
    (stream.take n)[i]? = if i < n then stream.byte? i else none := by
  induction n generalizing stream i with
  | zero => rfl
  | succ n ih =>
    rw [Nat.add_comm, take_add, take_succ, take_zero, List.nil_append]
    cases hfirst : stream.byte? 0 with
    | none =>
      -- a stream without a first byte has no bytes at all
      have hnone : ∀ j, stream.byte? j = none := fun j => byte?_of_le hfirst (Nat.zero_le j)
      rw [Option.toList_none, List.nil_append, ih]
      simp [drop, hnone]
    | some value =>
      cases i with
      | zero => simp [hfirst]
      | succ i => simp [ih, drop, Nat.add_comm]

@[simp] theorem take_ofList (bytes : List UInt8) (n : Nat) :
    (ofList bytes).take n = bytes.take n := by
  apply List.ext_getElem?
  intro i
  rw [getElem?_take, List.getElem?_take]
  rfl

@[simp] theorem drop_ofList (bytes : List UInt8) (n : Nat) :
    (ofList bytes).drop n = ofList (bytes.drop n) := by
  have hsame : (fun i => bytes[n + i]?) = fun i => (bytes.drop n)[i]? :=
    funext fun i => List.getElem?_drop.symm
  simp only [drop, ofList, hsame]

/-- The beginnings of a stream are given by their lengths. -/
theorem eq_take_of_prefix {bytes : List UInt8} (h : bytes <+: stream.take n) :
    bytes = stream.take bytes.length := by
  apply List.ext_getElem?
  intro i
  rw [getElem?_take]
  split
  · next hi =>
    have hget := List.prefix_iff_getElem?.mp h i hi
    rw [getElem?_take] at hget
    split at hget
    · rw [List.getElem?_eq_getElem hi, hget]
    · cases hget
  · next hi => exact List.getElem?_eq_none (Nat.not_lt.mp hi)

end ByteStream

/-- The fault, with the position that it points at moved. -/
def Fault.relocate (place : Nat → Nat) : Fault → Fault
  | .offTape ip pointer op => .offTape (place ip) pointer op
  | .unmatched ip bracket => .unmatched (place ip) bracket
  | cause => cause

/-- The result, with the position that its fault points at moved. -/
def Result.relocate (place : Nat → Nat) : Result → Result
  | .failed cause => .failed (cause.relocate place)
  | r => r

/-- What a run comes to that nobody disturbs. -/
inductive Future where
  | returns (r : Result)
  /-- It waits forever at the `,` at a position. -/
  | waits (pos : Nat)
  /-- It completes operators without end. -/
  | endless
  deriving DecidableEq

namespace Future

/-- The position that a future points at. -/
def ip? : Future → Option Nat
  | .returns (.failed cause) => cause.ip?
  | .waits pos => some pos
  | _ => none

/-- The future, with its result and its position changed. -/
def map (result : Result → Result) (place : Nat → Nat) : Future → Future
  | .returns r => .returns (result r)
  | .waits pos => .waits (place pos)
  | .endless => .endless

/-- The future, with the position that it points at moved. -/
def relocate (place : Nat → Nat) : Future → Future :=
  map (Result.relocate place) place

end Future

end Brainfuck
