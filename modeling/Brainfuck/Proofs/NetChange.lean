import Brainfuck.Proofs.ClosedForm
import Brainfuck.Proofs.PlainText
import Brainfuck.Proofs.Walks

/-!
# What a plain text adds to each cell

A text that only edits the tape adds a number to each cell, which depends on where the cell is seen
from the place at which the text was started, and not on what the tape holds (`netChange`). As long
as the pointer stays on the tape its edits are all made, and the tape after the first `k` positions
is given by that number and by `drift` (`editAll_take`, by induction on `k` with one case for each
operator). Where the pointer would leave the tape a move fails (`StaysFrom.exists_failing`).
-/

namespace Brainfuck

namespace StraightLine

variable {source : List Char} {offset : Int} {size start k ip : Nat} {ch : Char} {t : Tape}

/-- How often the character is carried out so far from the place of the start, of the first `k`
positions. -/
def timesAt (source : List Char) (ch : Char) (offset : Int) (k : Nat) : Nat :=
  (List.range k).countP fun j => source[j]? = some ch ∧ drift source j = offset

/-- What the first `k` positions add to the cell that is so far from the place of the start. -/
def netChange (source : List Char) (offset : Int) (k : Nat) : Int :=
  timesAt source '+' offset k - timesAt source '-' offset k

/-- Up to position `k` the pointer is on a tape of so many cells, if it was at cell `start`. -/
def StaysFrom (size start : Nat) (source : List Char) (k : Nat) : Prop :=
  ∀ j ≤ k, Tape.OnCell size (start + drift source j)

instance (size start : Nat) (source : List Char) (k : Nat) :
    Decidable (StaysFrom size start source k) :=
  inferInstanceAs (Decidable (∀ j ≤ k, _))

/-- The tape after the first `k` positions of a text that was started on `t`. -/
def passed (t : Tape) (source : List Char) (k : Nat) : Tape :=
  ⟨t.cells.mapIdx fun c cell => .ofInt (cell.toNat + netChange source (c - t.pointer) k),
    (t.pointer + drift source k).toNat⟩

/-! ## One more position -/

@[simp] theorem netChange_zero (source : List Char) (offset : Int) :
    netChange source offset 0 = 0 := rfl

theorem timesAt_succ (source : List Char) (ch : Char) (offset : Int) (k : Nat) :
    timesAt source ch offset (k + 1) = timesAt source ch offset k +
      if source[k]? = some ch ∧ drift source k = offset then 1 else 0 := by
  rw [timesAt, List.range_succ, List.countP_append, timesAt]
  simp [List.countP_singleton]

/-- A character changes the number of the cell that it is carried out at, if at all. -/
theorem netChange_succ (source : List Char) (offset : Int) (k : Nat) :
    netChange source offset (k + 1) = netChange source offset k +
      if drift source k = offset then
        (if source[k]? = some '+' then 1 else 0) - (if source[k]? = some '-' then 1 else 0)
      else 0 := by
  rw [netChange, timesAt_succ, timesAt_succ, netChange]
  by_cases h : drift source k = offset
  · simp only [h, and_true, if_true]
    push_cast
    split <;> split <;> omega
  · simp only [h, and_false, if_false]
    omega

theorem netChange_succ_of_kept (hadd : source[k]? ≠ some '+') (htake : source[k]? ≠ some '-')
    (offset : Int) : netChange source offset (k + 1) = netChange source offset k := by
  simp [netChange_succ, hadd, htake]

theorem StaysFrom.mono {n : Nat} (h : StaysFrom size start source n) (hkn : k ≤ n) :
    StaysFrom size start source k :=
  fun j hj => h j (Nat.le_trans hj hkn)

theorem staysFrom_succ_iff : StaysFrom size start source (k + 1) ↔
    StaysFrom size start source k ∧ Tape.OnCell size (start + drift source (k + 1)) :=
  forall_le_succ_iff

/-- A pointer that does not stay on the tape leaves it between two positions. -/
theorem exists_last_from {n : Nat} (hstart : start < size) (h : ¬ StaysFrom size start source n) :
    ∃ k < n, StaysFrom size start source k ∧ ¬ StaysFrom size start source (k + 1) := by
  refine exists_last_good ?_ h
  simp only [Tape.OnCell, drift_zero]
  omega

/-! ## The tape -/

theorem size_passed (t : Tape) (source : List Char) (k : Nat) : (passed t source k).size = t.size := by
  simp [passed, Tape.size]

theorem passed_zero (t : Tape) (source : List Char) : passed t source 0 = t := by
  obtain ⟨cells, pointer⟩ := t
  refine congrArg₂ Tape.mk (Array.ext (by simp) fun c _ _ => ?_) (by simp)
  simp [ofInt_toNat]

/-- A character that changes no cell moves the pointer at most. -/
theorem passed_succ_of_kept (hadd : source[k]? ≠ some '+') (htake : source[k]? ≠ some '-') :
    passed t source (k + 1) =
      ⟨(passed t source k).cells, (t.pointer + drift source (k + 1)).toNat⟩ := by
  simp only [passed, netChange_succ_of_kept hadd htake]

/-- A character that adds to the cell where it is carried out changes the current cell. -/
theorem passed_succ_of_write (amount : Int) (hon : StaysFrom t.size t.pointer source k)
    (hstay : drift source (k + 1) = drift source k)
    (hamount : ∀ offset, netChange source offset (k + 1) =
      netChange source offset k + if drift source k = offset then amount else 0) :
    passed t source (k + 1) = (passed t source k).modify (· + .ofInt amount) := by
  have hplace := (hon k (Nat.le_refl k)).1
  refine congrArg₂ Tape.mk (Array.ext (by simp [passed]) fun c _ _ => ?_) (by
    rw [hstay]; rfl)
  have hhere : (t.pointer + drift source k).toNat = c ↔ drift source k = c - t.pointer := by omega
  simp only [passed, Array.getElem_modify, Array.getElem_mapIdx, hamount, hhere]
  split
  · rw [← UInt8.ofInt_add, Int.add_assoc]
  · rw [Int.add_zero]

/-- The operator at position `k` makes the next tape of the one before it, if the pointer stays on
the tape. -/
theorem editAll_passed (hch : source[k]? = some ch) (hplain : PlainChar ch)
    (hon : StaysFrom t.size t.pointer source (k + 1)) (ip : Nat) :
    (passed t source k).editAll ((Op.ofChar? ch).bind (Op.edit? ip)).toList =
      .ok (passed t source (k + 1)) := by
  obtain ⟨hhere, hge, hlt⟩ := staysFrom_succ_iff.mp hon
  have hplace := (hhere k (Nat.le_refl k)).1
  have hsize : (passed t source k).cells.size = t.size := size_passed t source k
  have hattempt : ∀ {e : Tape.Edit}, (passed t source k).attempt e = .ok (passed t source (k + 1)) →
      (passed t source k).editAll [e] = .ok (passed t source (k + 1)) :=
    fun he => Tape.editAll_cons_of_ok he []
  cases hop : Op.ofChar? ch with
  | none =>
    have hne : ∀ op : Op, source[k]? ≠ some op.toChar := by
      intro op heq
      rw [Option.some.inj (hch.symm.trans heq), Op.ofChar?_toChar] at hop
      cases hop
    rw [passed_succ_of_kept (hne .increment) (hne .decrement),
      drift_succ_stay (hne .right) (hne .left)]
    rfl
  | some op =>
    obtain rfl := Op.ofChar?_eq_some_iff.mp hop
    cases op with
    | right =>
      have hdrift := drift_succ_right hch
      rw [hdrift] at hlt
      refine hattempt ?_
      have hroom : (passed t source k).pointer + 1 < (passed t source k).cells.size := by
        rw [hsize]
        simp only [passed]
        omega
      rw [Tape.attempt, Tape.moveRight, if_pos hroom,
        passed_succ_of_kept (by simp [hch, Op.toChar]) (by simp [hch, Op.toChar]), hdrift]
      simp only [passed]
      congr 2
      omega
    | left =>
      have hdrift := drift_succ_left hch
      rw [hdrift] at hge
      refine hattempt ?_
      have hroom : 0 < (passed t source k).pointer := by
        simp only [passed]
        omega
      rw [Tape.attempt, Tape.moveLeft, if_pos hroom,
        passed_succ_of_kept (by simp [hch, Op.toChar]) (by simp [hch, Op.toChar]), hdrift]
      simp only [passed]
      congr 2
      omega
    | increment =>
      have hstay : drift source (k + 1) = drift source k :=
        drift_succ_stay (by simp [hch, Op.toChar]) (by simp [hch, Op.toChar])
      refine hattempt ?_
      rw [passed_succ_of_write 1 hhere hstay
        fun offset => by simp [netChange_succ, hch, Op.toChar]]
      rfl
    | decrement =>
      have hstay : drift source (k + 1) = drift source k :=
        drift_succ_stay (by simp [hch, Op.toChar]) (by simp [hch, Op.toChar])
      refine hattempt ?_
      rw [passed_succ_of_write (-1) hhere hstay
        fun offset => by simp [netChange_succ, hch, Op.toChar]]
      have hsame : (· + UInt8.ofInt (-1)) = (· - 1 : UInt8 → UInt8) :=
        funext fun cell => (UInt8.sub_eq_add_neg cell 1).symm
      rw [hsame]
      rfl
    | print => exact absurd rfl hplain.1
    | read => exact absurd rfl hplain.2.1
    | openLoop => exact absurd rfl hplain.2.2.1
    | closeLoop => exact absurd rfl hplain.2.2.2

/-- As long as the pointer stays on the tape all edits are made. -/
theorem editAll_take (hplain : Plain source) (hk : k ≤ source.length)
    (hon : StaysFrom t.size t.pointer source k) (ip : Nat) :
    t.editAll (editsFrom ip (source.take k)) = .ok (passed t source k) := by
  induction k with
  | zero =>
    rw [passed_zero]
    rfl
  | succ k ih =>
    have hch := List.getElem?_eq_getElem hk
    have hone := editAll_passed (t := t) hch (hplain _ (List.getElem_mem hk)) hon
      (ip + (source.take k).length)
    have hlast : editsFrom (ip + (source.take k).length) [source[k]] =
        ((Op.ofChar? source[k]).bind (Op.edit? (ip + (source.take k).length))).toList :=
      (editsFrom_cons ..).trans (List.append_nil _)
    rw [List.take_succ_eq_append_getElem hk, editsFrom_append,
      Tape.editAll_append (ih (Nat.le_of_succ_le hk) (hon.mono (Nat.le_succ k))), hlast]
    exact hone

/-- Where the pointer would leave the tape a move fails. -/
theorem StaysFrom.exists_failing (hon : StaysFrom t.size t.pointer source k)
    (hoff : ¬ StaysFrom t.size t.pointer source (k + 1)) (ip : Nat) :
    ∃ (op : Op) (e : Tape.Edit), source[k]? = some op.toChar ∧ op.edit? ip = some e ∧
      (passed t source k).attempt e =
        .error (.offTape ip (t.pointer + drift source k).toNat op.toChar) := by
  have hplace := hon k (Nat.le_refl k)
  have hnext : ¬ Tape.OnCell t.size (t.pointer + drift source (k + 1)) :=
    fun hnext => hoff (staysFrom_succ_iff.mpr ⟨hon, hnext⟩)
  have hsize : (passed t source k).cells.size = t.size := size_passed t source k
  have hpointer : (passed t source k).pointer = (t.pointer + drift source k).toNat := rfl
  simp only [Tape.OnCell] at hplace hnext
  by_cases hright : source[k]? = some '>'
  · rw [drift_succ_right hright] at hnext
    have hedge : ¬ (passed t source k).pointer + 1 < (passed t source k).cells.size := by omega
    refine ⟨.right, _, hright, rfl, ?_⟩
    rw [Tape.attempt, Tape.moveRight, if_neg hedge]
    rfl
  · by_cases hleft : source[k]? = some '<'
    · rw [drift_succ_left hleft] at hnext
      have hedge : ¬ 0 < (passed t source k).pointer := by omega
      refine ⟨.left, _, hleft, rfl, ?_⟩
      rw [Tape.attempt, Tape.moveLeft, if_neg hedge]
      rfl
    · rw [drift_succ_stay hright hleft] at hnext
      omega

end StraightLine

end Brainfuck
