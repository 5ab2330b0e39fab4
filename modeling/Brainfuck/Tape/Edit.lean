import Brainfuck.Tape

/-!
# Editing a tape

What can be asked of a tape, as data. An `Edit` is one such request; a move carries the position that
its fault reports. Whoever asks may go on after a fault, with the tape as the failed move has left it
(`edited`), or give up at the first one (`editAll`), as a run does.
-/

namespace Brainfuck

namespace Tape

/-- Something that a tape is asked to do. -/
inductive Edit where
  | increment
  | decrement
  | set (value : UInt8)
  | right (ip : Nat)
  | left (ip : Nat)
  deriving DecidableEq

/-- The tape after an edit, or its fault. -/
def attempt (t : Tape) : Edit → Except Fault Tape
  | .increment => .ok t.increment
  | .decrement => .ok t.decrement
  | .set value => .ok (t.set value)
  | .right ip => t.moveRight ip
  | .left ip => t.moveLeft ip

/-- The tape after an edit, with its fault. An edit that fails leaves the tape as it is. -/
def edit (t : Tape) (e : Edit) : Tape × Option Fault :=
  match t.attempt e with
  | .ok t => (t, none)
  | .error cause => (t, some cause)

/-- The tape after edits, of which any may fail. -/
def edited (t : Tape) (es : List Edit) : Tape :=
  es.foldl (fun t e => (t.edit e).1) t

/-- The tape after edits, or the first fault. -/
def editAll (t : Tape) : List Edit → Except Fault Tape
  | [] => .ok t
  | e :: es =>
    match t.attempt e with
    | .ok t => t.editAll es
    | .error cause => .error cause

theorem edit_of_ok {t t' : Tape} {e : Edit} (h : t.attempt e = .ok t') : t.edit e = (t', none) := by
  rw [edit, h]

theorem edit_of_error {t : Tape} {e : Edit} {cause : Fault} (h : t.attempt e = .error cause) :
    t.edit e = (t, some cause) := by
  rw [edit, h]

/-- After a fault the tape is as it was before. -/
theorem edit_of_fault {t : Tape} {e : Edit} {cause : Fault} (h : (t.edit e).2 = some cause) :
    (t.edit e).1 = t := by
  cases hattempt : t.attempt e with
  | ok t' => rw [edit_of_ok hattempt] at h; cases h
  | error cause' => rw [edit_of_error hattempt]

theorem edited_concat (t : Tape) (es : List Edit) (e : Edit) :
    t.edited (es ++ [e]) = ((t.edited es).edit e).1 := by
  simp [edited]

theorem editAll_cons_of_ok {t t' : Tape} {e : Edit} (h : t.attempt e = .ok t') (es : List Edit) :
    t.editAll (e :: es) = t'.editAll es := by
  rw [editAll, h]

theorem exists_of_editAll_cons {t t' : Tape} {e : Edit} {es : List Edit}
    (h : t.editAll (e :: es) = .ok t') : ∃ t₁, t.attempt e = .ok t₁ ∧ t₁.editAll es = .ok t' := by
  cases hattempt : t.attempt e with
  | ok t₁ => exact ⟨t₁, rfl, (editAll_cons_of_ok hattempt es).symm.trans h⟩
  | error cause =>
    rw [editAll, hattempt] at h
    cases h

/-- Edits can be made in parts. -/
theorem editAll_append {t t' : Tape} {es : List Edit} (h : t.editAll es = .ok t')
    (later : List Edit) : t.editAll (es ++ later) = t'.editAll later := by
  induction es generalizing t with
  | nil =>
    cases h
    rfl
  | cons e es ih =>
    obtain ⟨t₁, hattempt, hrest⟩ := exists_of_editAll_cons h
    rw [List.cons_append, editAll_cons_of_ok hattempt, ih hrest]

theorem InBounds.attempt {t t' : Tape} {e : Edit} (h : t.InBounds) (he : t.attempt e = .ok t') :
    t'.InBounds := by
  cases e with
  | increment | decrement => cases he; exact h.modify _
  | set value => cases he; exact h.set value
  | right ip => exact InBounds.moveRight he
  | left ip => exact h.moveLeft he

end Tape

end Brainfuck
