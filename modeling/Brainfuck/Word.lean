import Brainfuck.Fault

/-!
# Machine words

Sums and differences of machine words that are looked at before they are used: one that is no machine
word breaks the computation off.
-/

namespace Brainfuck.Word

/-- The sum of two words. -/
def add (n m : Nat) : Except Failure Nat :=
  if n + m < UInt64.size then .ok (n + m) else .error .crash

/-- The word after `n`. -/
def succ (n : Nat) : Except Failure Nat :=
  if n + 1 < UInt64.size then .ok (n + 1) else .error .crash

/-- The word before `n`. -/
def pred : Nat → Except Failure Nat
  | 0 => .error .crash
  | n + 1 => .ok n

theorem succ_eq_ok {n : Nat} (h : n + 1 < UInt64.size) : succ n = .ok (n + 1) :=
  if_pos h

theorem eq_of_succ {n m : Nat} (h : succ n = .ok m) : m = n + 1 := by
  unfold succ at h
  split at h
  · exact (Except.ok.inj h).symm
  · cases h

/-- Two additions one after the other leave the words if and only if the whole sum does. -/
theorem add_succ (n m : Nat) : (add n m >>= succ) =
    if n + m + 1 < UInt64.size then .ok (n + m + 1) else .error .crash := by
  unfold add
  split
  · rfl
  · next hsum => exact (if_neg fun h => hsum (Nat.lt_of_succ_lt h)).symm

end Brainfuck.Word
