/-!
# Bytes of a text

A text is kept in UTF-8, one to four bytes for a character, and pieces are cut out of it by their
bytes. There is such a piece only if a character starts where it begins and one ends where it ends.
-/

namespace Brainfuck.Text

/-- The number of bytes of a text. -/
def byteLength : List Char → Nat
  | [] => 0
  | c :: cs => c.utf8Size + byteLength cs

/-- The text from a byte on, if a character starts there. -/
def fromByte : (start : Nat) → List Char → Option (List Char)
  | 0, cs => some cs
  | _ + 1, [] => none
  | start + 1, c :: cs =>
    if c.utf8Size ≤ start + 1 then fromByte (start + 1 - c.utf8Size) cs else none

/-- The text up to a byte, if a character ends there. -/
def upToByte : (stop : Nat) → List Char → Option (List Char)
  | 0, _ => some []
  | _ + 1, [] => none
  | stop + 1, c :: cs =>
    if c.utf8Size ≤ stop + 1 then (upToByte (stop + 1 - c.utf8Size) cs).map (c :: ·) else none

/-- The text between two bytes. -/
def cut (cs : List Char) (start stop : Nat) : Option (List Char) :=
  (fromByte start cs).bind (upToByte (stop - start))

theorem byteLength_append (cs ds : List Char) :
    byteLength (cs ++ ds) = byteLength cs + byteLength ds := by
  induction cs with
  | nil => rw [List.nil_append, byteLength, Nat.zero_add]
  | cons c cs ih => rw [List.cons_append, byteLength, byteLength, ih, Nat.add_assoc]

/-- The bytes of a character in front are passed over together. -/
theorem fromByte_add (c : Char) (n : Nat) (cs : List Char) :
    fromByte (c.utf8Size + n) (c :: cs) = fromByte n cs := by
  obtain ⟨k, hk⟩ := Nat.exists_eq_add_one_of_ne_zero (Nat.ne_of_gt c.utf8Size_pos)
  have hsum : c.utf8Size + n = k + n + 1 := by omega
  rw [hsum, fromByte, if_pos (by omega)]
  congr 1
  omega

theorem upToByte_add (c : Char) (n : Nat) (cs : List Char) :
    upToByte (c.utf8Size + n) (c :: cs) = (upToByte n cs).map (c :: ·) := by
  obtain ⟨k, hk⟩ := Nat.exists_eq_add_one_of_ne_zero (Nat.ne_of_gt c.utf8Size_pos)
  have hsum : c.utf8Size + n = k + n + 1 := by omega
  rw [hsum, upToByte, if_pos (by omega)]
  congr 2
  omega

/-- A character starts where a piece in front ends. -/
theorem fromByte_append (front rest : List Char) :
    fromByte (byteLength front) (front ++ rest) = some rest := by
  induction front with
  | nil => exact fromByte.eq_1 rest
  | cons c front ih => rw [byteLength, List.cons_append, fromByte_add, ih]

theorem upToByte_append (front rest : List Char) :
    upToByte (byteLength front) (front ++ rest) = some front := by
  induction front with
  | nil => exact upToByte.eq_1 rest
  | cons c front ih => rw [byteLength, List.cons_append, upToByte_add, ih, Option.map_some]

/-- A piece is cut out whole, whatever characters stand around it. -/
theorem cut_append (front piece rest : List Char) :
    cut (front ++ (piece ++ rest)) (byteLength front) (byteLength front + byteLength piece) =
      some piece := by
  rw [cut, fromByte_append, Option.bind_some, Nat.add_sub_cancel_left, upToByte_append]

end Brainfuck.Text
