import Brainfuck.Proofs.ClosedForm
import Brainfuck.Tape.Edit
import Mathlib.Data.List.Basic
import Mathlib.Data.List.Induction

/-!
# A tape as a walk over cells

What edits make of a tape, said without the tape. The pointer takes a `walk` over the numbers, in
which a step is ignored that would leave the cells, and a cell is the `total` of the edits that were
made while the walk was on it (`writesOn`), as an integer that is cut down to a byte in the end. An
edit writes to one cell or moves the pointer, never both, so one more edit adds to the walk or to the
writes of one cell, and the two descriptions follow by induction on the edits.
-/

namespace Brainfuck

namespace Tape

variable {t : Tape} {e : Edit} {ip : Nat} {op : Char}

/-- The position of a move and its operator; the other edits have none. -/
def Edit.move? : Edit → Option (Nat × Char)
  | .right ip => some (ip, '>')
  | .left ip => some (ip, '<')
  | _ => none

/-- Where an edit would take the pointer. -/
def Edit.target (position : Int) : Edit → Int
  | .right _ => position + 1
  | .left _ => position - 1
  | _ => position

/-- The number that an edit leaves where it is made. -/
def Edit.write (value : Int) : Edit → Int
  | .increment => value + 1
  | .decrement => value - 1
  | .set byte => byte.toNat
  | _ => value

/-- The place of one of so many cells. -/
def OnCell (size : Nat) (position : Int) : Prop :=
  0 ≤ position ∧ position < size

instance (size : Nat) (position : Int) : Decidable (OnCell size position) :=
  inferInstanceAs (Decidable (_ ∧ _))

/-- Where a walk gets; a step is ignored that would leave the cells. -/
def walk (size : Nat) (start : Int) (es : List Edit) : Int :=
  es.foldl
    (fun position e => if OnCell size (e.target position) then e.target position else position) start

/-- The edits that are no moves and that are made while the walk is on cell `c`, in their order. -/
def writesOn (size : Nat) (start : Int) (c : Nat) (es : List Edit) : List Edit :=
  (List.range es.length).filterMap fun j =>
    es[j]?.filter fun e => e.move? = none ∧ walk size start (es.take j) = c

/-- What becomes of a number by these edits. -/
def total (value : Int) (es : List Edit) : Int :=
  es.foldl Edit.write value

/-! ## One more edit -/

theorem walk_concat (size : Nat) (start : Int) (es : List Edit) (e : Edit) :
    walk size start (es ++ [e]) =
      if OnCell size (e.target (walk size start es)) then e.target (walk size start es)
      else walk size start es := by
  rw [walk, List.foldl_append]
  rfl

theorem writesOn_concat (size : Nat) (start : Int) (c : Nat) (es : List Edit) (e : Edit) :
    writesOn size start c (es ++ [e]) = writesOn size start c es ++
      if e.move? = none ∧ walk size start es = c then [e] else [] := by
  have hbefore : ∀ j ∈ List.range es.length, (es ++ [e])[j]? = es[j]? ∧
      (es ++ [e]).take j = es.take j := by
    intro j hj
    have hlt := List.mem_range.mp hj
    exact ⟨List.getElem?_append_left hlt, List.take_append_of_le_length (Nat.le_of_lt hlt)⟩
  rw [writesOn, List.length_append, List.length_singleton, List.range_succ, List.filterMap_append]
  congr 1
  · refine List.filterMap_congr fun j hj => ?_
    rw [(hbefore j hj).1, (hbefore j hj).2]
  · rw [List.filterMap_cons, List.filterMap_nil, List.getElem?_concat_length, Option.filter_some,
      List.take_left]
    by_cases h : e.move? = none ∧ walk size start es = c
    · rw [if_pos h, if_pos (decide_eq_true h)]
    · rw [if_neg h, if_neg (by simpa using h)]

theorem total_concat (value : Int) (es : List Edit) (e : Edit) :
    total value (es ++ [e]) = e.write (total value es) := by
  rw [total, List.foldl_append]
  rfl

/-! ## What one edit does -/

theorem Edit.target_of_write (h : e.move? = none) (position : Int) : e.target position = position := by
  cases e <;> first | rfl | cases h

/-- An edit that is no move changes the current cell as it changes numbers, cut down to a byte. -/
theorem edit_of_write (h : e.move? = none) :
    t.edit e = (t.modify fun cell => .ofInt (e.write cell.toNat), none) := by
  have hadd : (fun cell : UInt8 => UInt8.ofInt (cell.toNat + 1)) = (· + 1) := by
    funext cell
    rw [UInt8.ofInt_add, StraightLine.ofInt_toNat]
    rfl
  have htake : (fun cell : UInt8 => UInt8.ofInt (cell.toNat - 1)) = (· - 1) := by
    funext cell
    rw [StraightLine.ofInt_sub, StraightLine.ofInt_toNat]
    rfl
  cases e with
  | increment => exact congrArg (fun f => (t.modify f, none)) hadd.symm
  | decrement => exact congrArg (fun f => (t.modify f, none)) htake.symm
  | set byte =>
    have hset : (fun _ : UInt8 => UInt8.ofInt byte.toNat) = fun _ => byte := by
      rw [StraightLine.ofInt_toNat]
    show (t.set byte, none) = (t.modify fun _ => UInt8.ofInt byte.toNat, none)
    rw [hset, modify_const]
  | right ip | left ip => cases h

/-- A move goes where it leads to, if there is a cell; otherwise it fails and the pointer stays. -/
theorem edit_of_move (ht : t.InBounds) (h : e.move? = some (ip, op)) :
    t.edit e = if OnCell t.size (e.target t.pointer)
      then ({ t with pointer := (e.target t.pointer).toNat }, none)
      else (t, some (.offTape ip t.pointer op)) := by
  have hlt : t.pointer < t.cells.size := ht
  cases e with
  | increment | decrement | set byte => cases h
  | right ip =>
    cases h
    by_cases hroom : t.pointer + 1 < t.cells.size
    · have hon : OnCell t.size (Edit.target t.pointer (.right ip)) := by
        simp only [OnCell, Edit.target, size]
        omega
      rw [if_pos hon]
      exact edit_of_ok (by simp [attempt, moveRight, hroom, Edit.target])
    · have hoff : ¬ OnCell t.size (Edit.target t.pointer (.right ip)) := by
        simp only [OnCell, Edit.target, size]
        omega
      rw [if_neg hoff]
      exact edit_of_error (by simp [attempt, moveRight, hroom])
  | left ip =>
    cases h
    by_cases hroom : 0 < t.pointer
    · have hon : OnCell t.size (Edit.target t.pointer (.left ip)) := by
        simp only [OnCell, Edit.target, size]
        omega
      have hsame : (Edit.target t.pointer (.left ip)).toNat = t.pointer - 1 := by
        simp only [Edit.target]
        omega
      rw [if_pos hon, hsame]
      exact edit_of_ok (by simp [attempt, moveLeft, hroom])
    · have hoff : ¬ OnCell t.size (Edit.target t.pointer (.left ip)) := by
        simp only [OnCell, Edit.target]
        omega
      rw [if_neg hoff]
      exact edit_of_error (by simp [attempt, moveLeft, hroom])

/-- After an edit the pointer is where the walk is, and every cell is still there. -/
theorem InBounds.edit (ht : t.InBounds) (e : Edit) : (t.edit e).1.InBounds ∧
    (t.edit e).1.size = t.size ∧ ((t.edit e).1.pointer : Int) =
      if OnCell t.size (e.target t.pointer) then e.target t.pointer else t.pointer := by
  cases hmove : e.move? with
  | none =>
    rw [edit_of_write hmove, Edit.target_of_write hmove]
    have hsize : (t.modify fun cell => .ofInt (e.write cell.toNat)).size = t.size := by
      simp [Tape.size, Tape.modify]
    exact ⟨ht.modify _, hsize, (ite_self _).symm⟩
  | some move =>
    rw [edit_of_move ht hmove]
    split
    · next hon =>
      obtain ⟨hge, hlt⟩ := hon
      have hpointer : ((e.target t.pointer).toNat : Int) = e.target t.pointer :=
        Int.toNat_of_nonneg hge
      refine ⟨?_, rfl, hpointer⟩
      show (e.target t.pointer).toNat < t.size
      omega
    · exact ⟨ht, rfl, rfl⟩

/-- After an edit a cell holds what was written if the pointer was on it, and otherwise what it held
before. -/
theorem InBounds.getElem?_edit (ht : t.InBounds) (e : Edit) (c : Nat) :
    (t.edit e).1.cells[c]? = t.cells[c]?.map fun cell =>
      if e.move? = none ∧ t.pointer = c then .ofInt (e.write cell.toNat) else cell := by
  cases hmove : e.move? with
  | none =>
    rw [edit_of_write hmove]
    simp only [Tape.modify, Array.getElem?_modify, true_and]
    split <;> simp
  | some move =>
    have hcells : (t.edit e).1.cells = t.cells := by
      rw [edit_of_move ht hmove]
      split <;> rfl
    simp [hcells]

theorem write_ofInt (h : e.move? = none) (value : Int) :
    UInt8.ofInt (e.write (UInt8.ofInt value).toNat) = .ofInt (e.write value) := by
  cases e with
  | increment =>
    simp only [Edit.write]
    rw [UInt8.ofInt_add, UInt8.ofInt_add, StraightLine.ofInt_toNat]
  | decrement =>
    simp only [Edit.write]
    rw [StraightLine.ofInt_sub, StraightLine.ofInt_sub, StraightLine.ofInt_toNat]
  | set byte => rfl
  | right ip | left ip => cases h

/-! ## What many edits do -/

variable {es : List Edit}

/-- After edits the pointer is where the walk is, and every cell is still there. -/
theorem InBounds.edited (ht : t.InBounds) (es : List Edit) : (t.edited es).InBounds ∧
    (t.edited es).size = t.size ∧ ((t.edited es).pointer : Int) = walk t.size t.pointer es := by
  induction es using List.reverseRecOn with
  | nil => exact ⟨ht, rfl, rfl⟩
  | append_singleton es e ih =>
    obtain ⟨hbounds, hsize, hpointer⟩ := ih
    obtain ⟨hbounds', hsize', hpointer'⟩ := hbounds.edit e
    rw [edited_concat, walk_concat]
    rw [hsize, hpointer] at hpointer'
    exact ⟨hbounds', hsize'.trans hsize, hpointer'⟩

/-- After edits a cell holds what those make of it that were made on it. -/
theorem InBounds.getElem?_edited (ht : t.InBounds) (es : List Edit) (c : Nat) :
    (t.edited es).cells[c]? = t.cells[c]?.map fun cell =>
      .ofInt (total cell.toNat (writesOn t.size t.pointer c es)) := by
  induction es using List.reverseRecOn with
  | nil =>
    have hsame : (fun cell : UInt8 => UInt8.ofInt cell.toNat) = id := by
      funext cell
      exact StraightLine.ofInt_toNat cell
    show t.cells[c]? = t.cells[c]?.map fun cell : UInt8 => UInt8.ofInt cell.toNat
    rw [hsame, Option.map_id, id]
  | append_singleton es e ih =>
    obtain ⟨hbounds, hsize, hpointer⟩ := ht.edited es
    rw [edited_concat, hbounds.getElem?_edit, ih, Option.map_map, writesOn_concat, ← hpointer]
    refine congrFun (congrArg Option.map (funext fun cell => ?_)) _
    simp only [Function.comp_apply, Int.natCast_inj]
    split
    · next h => rw [total_concat, write_ofInt h.1]
    · rw [List.append_nil]

/-- An edit fails exactly if it is a move to where there is no cell, and its fault tells where the
pointer is. -/
theorem InBounds.edit_fault_iff (ht : t.InBounds) {cause : Fault} :
    (t.edit e).2 = some cause ↔ ¬ OnCell t.size (e.target t.pointer) ∧
      ∃ ip op, e.move? = some (ip, op) ∧ cause = .offTape ip t.pointer op := by
  cases hmove : e.move? with
  | none =>
    rw [edit_of_write hmove]
    refine iff_of_false nofun ?_
    rintro ⟨-, ip, op, hnone, -⟩
    cases hnone
  | some move =>
    rw [edit_of_move ht hmove]
    constructor
    · intro h
      split at h
      · cases h
      · next hoff =>
        cases h
        exact ⟨hoff, _, _, rfl, rfl⟩
    · rintro ⟨hoff, ip, op, hsame, rfl⟩
      cases hsame
      rw [if_neg hoff]

theorem blank_eq {size : Nat} (hsize : 1 ≤ size) :
    blank size = .ok ⟨Array.replicate size 0, 0⟩ := by
  rw [blank, if_neg (Nat.ne_of_gt hsize)]

/-- Whatever a new tape is asked to do, and whether or not some of it fails, the pointer is where a
walk gets that starts at the first cell and ignores the steps that would leave the tape, so it is on
one of the cells, of which there are as many as before. What a cell holds is made, modulo 256, by the
edits that were no moves and were made while the walk was on it, in their order, and by nothing else.
An edit that follows fails exactly if it is a move that the walk ignores, with the position that it
was given, the pointer and its operator in the fault, and then it leaves the tape as it was. -/
theorem edits_walk_over_cells {size : Nat} (hsize : 1 ≤ size) :
    ∃ t, blank size = .ok t ∧ ∀ es : List Edit,
      ((t.edited es).pointer : Int) = walk size 0 es ∧ (t.edited es).pointer < size ∧
      (t.edited es).size = size ∧
      (∀ c < size, (t.edited es).cells[c]? = some (.ofInt (total 0 (writesOn size 0 c es)))) ∧
      ∀ e : Edit,
        (∀ cause, ((t.edited es).edit e).2 = some cause ↔
          ¬ OnCell size (e.target (walk size 0 es)) ∧
            ∃ ip op, e.move? = some (ip, op) ∧ cause = .offTape ip (t.edited es).pointer op) ∧
        ((∃ cause, ((t.edited es).edit e).2 = some cause) →
          ((t.edited es).edit e).1 = t.edited es) := by
  refine ⟨_, blank_eq hsize, fun es => ?_⟩
  have ht : InBounds ⟨Array.replicate size 0, 0⟩ := inBounds_of_blank (blank_eq hsize)
  have hcells : Tape.size ⟨Array.replicate size 0, 0⟩ = size := Array.size_replicate
  obtain ⟨hbounds, hsame, hpointer⟩ := ht.edited es
  rw [hcells] at hsame hpointer
  have hpointer : ((edited ⟨Array.replicate size 0, 0⟩ es).pointer : Int) = walk size 0 es :=
    hpointer
  refine ⟨hpointer, Nat.lt_of_lt_of_eq hbounds hsame, hsame, fun c hc => ?_,
    fun e => ⟨fun cause => ?_, ?_⟩⟩
  · rw [ht.getElem?_edited, hcells, Array.getElem?_replicate, if_pos hc]
    rfl
  · rw [hbounds.edit_fault_iff, hsame, hpointer]
  · rintro ⟨cause, hcause⟩
    exact edit_of_fault hcause

/-- Three cells, and moves that fail at both ends. -/
theorem edits_walk_over_cells_of_three :
    let es : List Edit := [.set 9, .left 0, .right 1, .increment, .right 2, .right 3, .decrement,
      .decrement]
    1 ≤ 3 ∧ walk 3 0 es = 2 ∧ writesOn 3 0 2 es = [.decrement, .decrement] ∧
      ∃ t, blank 3 = .ok t ∧ (t.edited es).pointer = 2 ∧ (t.edited es).cells[2]? = some 254 ∧
        ((t.edited es).edit (.right 7)).2 = some (.offTape 7 2 '>') ∧
        ((t.edited es).edit (.right 7)).1 = t.edited es := by
  intro es
  obtain ⟨t, ht, hall⟩ := @edits_walk_over_cells 3 (by decide)
  obtain ⟨hpointer, -, -, hcells, hedits⟩ := hall es
  have hwalk : walk 3 0 es = 2 := by decide
  have hwrites : writesOn 3 0 2 es = [.decrement, .decrement] := by decide
  have hcell := hcells 2 (by decide)
  rw [hwalk] at hpointer
  rw [hwrites] at hcell
  have hplace : (t.edited es).pointer = 2 := Int.ofNat_inj.mp hpointer
  have hfault := ((hedits (.right 7)).1 (.offTape 7 2 '>')).mpr
    ⟨by decide, 7, '>', rfl, by rw [hplace]⟩
  exact ⟨by decide, hwalk, hwrites, t, ht, hplace, hcell, hfault, (hedits _).2 ⟨_, hfault⟩⟩

end Tape

end Brainfuck
