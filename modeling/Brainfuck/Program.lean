import Brainfuck.Fault
import Brainfuck.Op

/-!
# Programs

A program has one position for every character of its source, so a position in the program is also
a position in the text; a comment is a position without an operator. Brackets are not matched
beforehand. A loop that has to be crossed looks for its other end by counting depth: `closeWithin`
goes right and `openBefore` goes left, and both stop at the bracket that brings the depth back.
-/

namespace Brainfuck

/-- A program: at each position an operator, or nothing for a comment. -/
structure Program where
  /-- What stands at each position. -/
  ops : Array (Option Op)
  deriving DecidableEq

namespace Program

/-- The program a source text spells. -/
def ofChars (source : List Char) : Program :=
  ⟨(source.map Op.ofChar?).toArray⟩

/-- The program a source text spells. -/
def ofString (source : String) : Program :=
  ofChars source.toList

/-- The number of positions, comments included. -/
def size (p : Program) : Nat :=
  p.ops.size

/-- The operator at a position; comments and positions past the end have none. -/
def op? (p : Program) (pos : Nat) : Option Op :=
  match p.ops[pos]? with
  | some o => o
  | none => none

/-- The first `]` among the `left` positions from `pos` on that closes a loop `depth` loops out. -/
def closeWithin (p : Program) : (left depth pos : Nat) → Option Nat
  | 0, _, _ => none
  | left + 1, depth, pos =>
    match p.op? pos with
    | some .openLoop => closeWithin p left (depth + 1) (pos + 1)
    | some .closeLoop =>
      match depth with
      | 0 => some pos
      | outer + 1 => closeWithin p left outer (pos + 1)
    | _ => closeWithin p left depth (pos + 1)

/-- The first `]` from `start` on that closes a loop entered before `start`. -/
def closeFrom (p : Program) (start : Nat) : Option Nat :=
  p.closeWithin (p.size - start) 0 start

/-- The last `[` before `pos` that opens a loop `depth` loops out. -/
def openBefore (p : Program) : (depth pos : Nat) → Option Nat
  | _, 0 => none
  | depth, pos + 1 =>
    match p.op? pos with
    | some .closeLoop => openBefore p (depth + 1) pos
    | some .openLoop =>
      match depth with
      | 0 => some pos
      | outer + 1 => openBefore p outer pos
    | _ => openBefore p depth pos

/-- The `]` for the `[` at `ip`. -/
def loopExit (p : Program) (ip : Nat) : Except Failure Nat :=
  match p.closeFrom (ip + 1) with
  | some pos => .ok pos
  | none => .error (.fault (.unmatched ip .opening))

/-- The `[` for the `]` at `ip`. Nothing can be read beyond the end of the program, so a search that
starts there crashes. -/
def loopEntry (p : Program) (ip : Nat) : Except Failure Nat :=
  if p.size < ip then .error .crash
  else
    match p.openBefore 0 ip with
    | some pos => .ok pos
    | none => .error (.fault (.unmatched ip .closing))

/-- The `]` for a `[` at the machine word `ip`, whatever stands there. The search starts at the word
after `ip`, which for the last word of all is the start of the program. -/
def loopExitAt (p : Program) (ip : UInt64) : Except Failure Nat :=
  match p.closeFrom (ip + 1).toNat with
  | some pos => .ok pos
  | none => .error (.fault (.unmatched ip.toNat .opening))

/-- The `[` for a `]` at the machine word `ip`, whatever stands there. -/
def loopEntryAt (p : Program) (ip : UInt64) : Except Failure Nat :=
  p.loopEntry ip.toNat

/-- The program's text with every comment written as a blank. -/
def render (p : Program) : String :=
  String.ofList (p.ops.toList.map fun o => (o.map Op.toChar).getD ' ')

@[simp] theorem size_ofChars (source : List Char) : (ofChars source).size = source.length := by
  simp [ofChars, size]

@[simp] theorem op?_ofChars (source : List Char) (pos : Nat) :
    (ofChars source).op? pos = source[pos]?.bind Op.ofChar? := by
  unfold op? ofChars
  cases h : source[pos]? <;> simp [h]

/-- Only a position inside the program holds an operator. -/
theorem lt_size_of_op?_eq_some {p : Program} {pos : Nat} {op : Op} (h : p.op? pos = some op) :
    pos < p.size := by
  unfold op? at h
  split at h
  · next ho => exact (Array.getElem?_eq_some_iff.mp ho).1
  · cases h

end Program

end Brainfuck
