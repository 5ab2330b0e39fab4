import Brainfuck.Report
import Brainfuck.Word

/-!
# Reports that check their sums

The end of the shown piece of the source is a sum of machine words, which `Brainfuck.Report` takes as
it comes. Here both of its additions are looked at: where one of them leaves the machine words the
report breaks off, and what has been written of it is its first line. Everything else is as in
`Brainfuck.Report`. The report breaks off at the last 33 words and nowhere else
(`atPositionChecked_eq`).
-/

namespace Brainfuck.Report

/-- Where the shown piece of a source with `total` characters ends. -/
def windowStopChecked (pos : UInt64) (total : Nat) : Except Failure Nat := do
  let stop ← Word.succ (← Word.add pos.toNat reach.toNat)
  .ok (min stop total)

/-- The shown piece of the source, and the caret under it. -/
def contextChecked (code : List Char) (pos : UInt64) :
    Except Failure (List Char × List Char) := do
  let start := (windowStart pos).toNat
  let stop ← windowStopChecked pos code.length
  .ok (((code.drop start).take (stop - start)).map shown, caretLine pos)

/-- What is written of a report with a place, and why it breaks off, if it does. The first line is
written before the source is looked at. -/
def atPositionChecked (terminal : Bool) (text : String) (code : List Char) (pos : UInt64) :
    String × Option Failure :=
  let first := s!"{headline terminal text} at instruction {pos.toNat}\n"
  match contextChecked code pos with
  | .ok (line, caret) =>
    (first ++ "  " ++ String.ofList line ++ "\n" ++ "  " ++ String.ofList caret ++ "\n", none)
  | .error failure => (first, some failure)

/-- A sum for the end of the piece that leaves the words wraps around where it is not looked at. -/
theorem toNat_behind (pos : UInt64) : (pos + reach + 1).toNat = (pos.toNat + 33) % UInt64.size := by
  rw [UInt64.toNat_add, UInt64.toNat_add]
  exact Nat.mod_add_mod (pos.toNat + 32) UInt64.size 1

/-- The sum leaves the words where the position is one of the last 33. -/
theorem windowStopChecked_eq (pos : UInt64) (total : Nat) : windowStopChecked pos total =
    if pos.toNat + 33 < UInt64.size then .ok (windowStop pos total) else .error .crash := by
  have hsum : windowStopChecked pos total =
      (Word.add pos.toNat 32 >>= Word.succ) >>= fun stop => .ok (min stop total) :=
    (bind_assoc _ _ _).symm
  rw [hsum, Word.add_succ]
  split
  · next hroom =>
    rw [windowStop, toNat_behind, Nat.mod_eq_of_lt hroom]
    rfl
  · rfl

theorem atPositionChecked_eq (terminal : Bool) (text : String) (code : List Char) (pos : UInt64) :
    atPositionChecked terminal text code pos =
      if pos.toNat + 33 < UInt64.size then (atPosition terminal text code pos, none)
      else (s!"{headline terminal text} at instruction {pos.toNat}\n", some .crash) := by
  rw [atPositionChecked, contextChecked, windowStopChecked_eq]
  by_cases hroom : pos.toNat + 33 < UInt64.size
  · rw [if_pos hroom, if_pos hroom]
    rfl
  · rw [if_neg hroom, if_neg hroom]
    rfl

end Brainfuck.Report
