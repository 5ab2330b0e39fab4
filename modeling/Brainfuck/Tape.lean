import Brainfuck.Fault

/-!
# Tapes

A fixed row of byte cells and a pointer to one of them. A cell wraps around at both ends of its
range; the pointer does not: a move that would leave the row is a fault and leaves everything as it
was. `InBounds` says that the pointer stands on a cell. A new tape is in bounds and every operation
keeps it so.
-/

namespace Brainfuck

/-- A row of cells and a pointer. -/
structure Tape where
  cells : Array UInt8
  pointer : Nat
  deriving DecidableEq

namespace Tape

/-- A tape of `size` zero cells with the pointer on the first. -/
def blank (size : Nat) : Except Fault Tape :=
  if size = 0 then .error (.noCells size)
  else .ok ⟨Array.replicate size 0, 0⟩

/-- The most cells for which there can be room, which is the greatest signed 64-bit number. -/
def mostCells : Nat :=
  UInt64.size / 2 - 1

/-- A blank tape, if there is room for it. -/
def make (size : Nat) : Except Failure Tape :=
  if mostCells < size then .error .crash
  else
    match blank size with
    | .ok t => .ok t
    | .error cause => .error (.fault cause)

/-- The number of cells. -/
def size (t : Tape) : Nat :=
  t.cells.size

/-- The current cell. -/
def current? (t : Tape) : Option UInt8 :=
  t.cells[t.pointer]?

/-- Replaces the value of the current cell. -/
def modify (t : Tape) (f : UInt8 → UInt8) : Tape :=
  { t with cells := t.cells.modify t.pointer f }

/-- Stores a byte in the current cell. -/
def set (t : Tape) (value : UInt8) : Tape :=
  { t with cells := t.cells.setIfInBounds t.pointer value }

/-- Adds one to the current cell; after 255 comes 0. -/
def increment (t : Tape) : Tape :=
  t.modify (· + 1)

/-- Takes one from the current cell; before 0 comes 255. -/
def decrement (t : Tape) : Tape :=
  t.modify (· - 1)

/-- Moves the pointer one cell to the right. The position `ip` of the move is only reported. -/
def moveRight (t : Tape) (ip : Nat) : Except Fault Tape :=
  if t.pointer + 1 < t.cells.size then .ok { t with pointer := t.pointer + 1 }
  else .error (.offTape ip t.pointer '>')

/-- Moves the pointer one cell to the left. The position `ip` of the move is only reported. -/
def moveLeft (t : Tape) (ip : Nat) : Except Fault Tape :=
  if 0 < t.pointer then .ok { t with pointer := t.pointer - 1 }
  else .error (.offTape ip t.pointer '<')

/-- The cells up to the last one that is not zero. -/
def usedCells (t : Tape) : Array UInt8 :=
  t.cells.popWhile (· == 0)

/-- The pointer stands on a cell. -/
def InBounds (t : Tape) : Prop :=
  t.pointer < t.size

theorem current?_eq_some (t : Tape) (h : t.pointer < t.cells.size) :
    t.current? = some t.cells[t.pointer] :=
  Array.getElem?_eq_getElem h

/-- Changing the current cell is setting it. -/
theorem modify_eq_set (cells : Array UInt8) (f : UInt8 → UInt8) {pointer : Nat}
    (h : pointer < cells.size) : cells.modify pointer f = cells.set pointer (f cells[pointer]) := by
  apply Array.ext
  · simp
  · intro i hi _
    rw [Array.getElem_modify, Array.getElem_set]
    split
    · next hi => subst hi; rfl
    · rfl

theorem modify_id (t : Tape) : t.modify id = t := by
  refine congrArg (Tape.mk · _) (Array.ext (by simp) fun c _ _ => ?_)
  simp [Array.getElem_modify]

/-- Storing a byte is changing the cell to it, whatever it holds. -/
theorem modify_const (t : Tape) (value : UInt8) : t.modify (fun _ => value) = t.set value := by
  refine congrArg (Tape.mk · _) (Array.ext (by simp) fun c hc _ => ?_)
  rw [Array.getElem_modify, Array.getElem_setIfInBounds (by simpa using hc)]

theorem inBounds_of_blank {size : Nat} {t : Tape} (h : blank size = .ok t) : t.InBounds := by
  unfold blank at h
  split at h
  · cases h
  · next hsize =>
    cases h
    simpa [InBounds, Tape.size] using Nat.pos_of_ne_zero hsize

theorem InBounds.modify {t : Tape} (h : t.InBounds) (f : UInt8 → UInt8) :
    (t.modify f).InBounds := by
  simpa [InBounds, Tape.size, Tape.modify] using h

theorem InBounds.set {t : Tape} (h : t.InBounds) (value : UInt8) : (t.set value).InBounds := by
  simpa [InBounds, Tape.size, Tape.set] using h

theorem InBounds.moveRight {t t' : Tape} {ip : Nat} (ht : t.moveRight ip = .ok t') :
    t'.InBounds := by
  unfold Tape.moveRight at ht
  split at ht
  · next hlt => cases ht; exact hlt
  · cases ht

theorem InBounds.moveLeft {t t' : Tape} {ip : Nat} (h : t.InBounds)
    (ht : t.moveLeft ip = .ok t') : t'.InBounds := by
  unfold Tape.moveLeft at ht
  split at ht
  · cases ht
    simp only [InBounds, Tape.size] at h ⊢
    omega
  · cases ht

end Tape

end Brainfuck
