import Brainfuck.Machine

/-!
# Silent stretches

A stretch of a program in which nothing is printed or read and nothing fails. `Machine.stretch`
carries one out in a single go, with a limit on the number of positions; it stops before an operator
that somebody else would see.
-/

namespace Brainfuck.Machine

/-- Goes on over at most `left` positions, as long as they are silent. The result is how many of
these are not used, and the machine after the others. -/
def stretch (p : Program) : (left : Nat) → Machine → Nat × Machine
  | 0, m => (0, m)
  | left + 1, ⟨⟨cells, pointer⟩, output, ip⟩ =>
    if h : ip < p.ops.size then
      match p.ops[ip] with
      | none => stretch p left ⟨⟨cells, pointer⟩, output, ip + 1⟩
      | some op =>
        if hp : pointer < cells.size then
          match op with
          | .right =>
            if pointer + 1 < cells.size then
              stretch p left ⟨⟨cells, pointer + 1⟩, output, ip + 1⟩
            else (left + 1, ⟨⟨cells, pointer⟩, output, ip⟩)
          | .left =>
            if 0 < pointer then stretch p left ⟨⟨cells, pointer - 1⟩, output, ip + 1⟩
            else (left + 1, ⟨⟨cells, pointer⟩, output, ip⟩)
          | .increment =>
            stretch p left ⟨⟨cells.set pointer (cells[pointer] + 1), pointer⟩, output, ip + 1⟩
          | .decrement =>
            stretch p left ⟨⟨cells.set pointer (cells[pointer] - 1), pointer⟩, output, ip + 1⟩
          | .openLoop =>
            if cells[pointer] = 0 then
              match p.closeFrom (ip + 1) with
              | some close => stretch p left ⟨⟨cells, pointer⟩, output, close + 1⟩
              | none => (left + 1, ⟨⟨cells, pointer⟩, output, ip⟩)
            else stretch p left ⟨⟨cells, pointer⟩, output, ip + 1⟩
          | .closeLoop =>
            if cells[pointer] = 0 then stretch p left ⟨⟨cells, pointer⟩, output, ip + 1⟩
            else
              match p.openBefore 0 ip with
              | some first => stretch p left ⟨⟨cells, pointer⟩, output, first + 1⟩
              | none => (left + 1, ⟨⟨cells, pointer⟩, output, ip⟩)
          | .print | .read => (left + 1, ⟨⟨cells, pointer⟩, output, ip⟩)
        else (left + 1, ⟨⟨cells, pointer⟩, output, ip⟩)
    else (left + 1, ⟨⟨cells, pointer⟩, output, ip⟩)

/-- The machine goes over one silent position: nothing is asked for there, or the operator there
succeeds and neither prints nor reads. -/
inductive GoesSilently (p : Program) (m : Machine) : Machine → Prop where
  | skips (hip : m.ip < p.size) (hop : p.op? m.ip = none) : GoesSilently p m m.skip
  | performs {m' : Machine} {op : Op} {cell : UInt8} (hop : p.op? m.ip = some op)
      (hcell : m.tape.current? = some cell) (hprint : op ≠ .print) (hread : op ≠ .read)
      (hm : m.perform p cell op = .ok m') : GoesSilently p m m'

/-- A stretch that may still go on stops where it is, or goes over one silent position. -/
theorem stretch_succ_cases (p : Program) (left : Nat) (m : Machine) :
    m.stretch p (left + 1) = (left + 1, m) ∨
      ∃ m', m.GoesSilently p m' ∧ m.stretch p (left + 1) = m'.stretch p left := by
  obtain ⟨⟨cells, pointer⟩, output, ip⟩ := m
  rw [stretch]
  split
  · next hip =>
    have hop : p.op? ip = p.ops[ip] := by
      unfold Program.op?
      rw [Array.getElem?_eq_getElem hip]
    split
    · next hnone => exact .inr ⟨_, .skips hip (hop.trans hnone), rfl⟩
    · next op hsome =>
      split
      · next hpointer =>
        have goes : ∀ {m'}, op ≠ .print → op ≠ .read →
            perform p cells[pointer] ⟨⟨cells, pointer⟩, output, ip⟩ op = .ok m' →
            GoesSilently p ⟨⟨cells, pointer⟩, output, ip⟩ m' :=
          .performs (hop.trans hsome) (Tape.current?_eq_some _ hpointer)
        cases op with
        | right =>
          dsimp only
          split
          · next hroom =>
            exact .inr ⟨_, goes (by decide) (by decide) (by
              simp [perform, Tape.moveRight, hroom]), rfl⟩
          · exact .inl rfl
        | left =>
          dsimp only
          split
          · next hroom =>
            exact .inr ⟨_, goes (by decide) (by decide) (by
              simp [perform, Tape.moveLeft, hroom]), rfl⟩
          · exact .inl rfl
        | increment =>
          exact .inr ⟨_, goes (by decide) (by decide) (by
            simp [perform, Tape.increment, Tape.modify, Tape.modify_eq_set cells _ hpointer]), rfl⟩
        | decrement =>
          exact .inr ⟨_, goes (by decide) (by decide) (by
            simp [perform, Tape.decrement, Tape.modify, Tape.modify_eq_set cells _ hpointer]), rfl⟩
        | print | read => exact .inl rfl
        | openLoop =>
          dsimp only
          split
          · next hzero =>
            split
            · next hclose =>
              exact .inr ⟨_, goes (by decide) (by decide) (by
                simp [perform, hzero, Program.loopExit, hclose]), rfl⟩
            · exact .inl rfl
          · next hzero =>
            exact .inr ⟨_, goes (by decide) (by decide) (by simp [perform, hzero]), rfl⟩
        | closeLoop =>
          dsimp only
          split
          · next hzero =>
            exact .inr ⟨_, goes (by decide) (by decide) (by simp [perform, hzero]), rfl⟩
          · next hzero =>
            split
            · next hopen =>
              have hle : ¬ p.size < ip := Nat.not_lt.mpr (Nat.le_of_lt hip)
              exact .inr ⟨_, goes (by decide) (by decide) (by
                simp [perform, hzero, Program.loopEntry, hopen, hle]), rfl⟩
            · exact .inl rfl
      · exact .inl rfl
  · exact .inl rfl

theorem stretch_le (p : Program) (left : Nat) (m : Machine) : (m.stretch p left).1 ≤ left := by
  induction left generalizing m with
  | zero => exact Nat.le_refl 0
  | succ left ih =>
    rcases stretch_succ_cases p left m with hstays | ⟨m', -, hgoes⟩
    · exact Nat.le_of_eq (congrArg Prod.fst hstays)
    · rw [hgoes]
      exact Nat.le_succ_of_le (ih m')

end Brainfuck.Machine
