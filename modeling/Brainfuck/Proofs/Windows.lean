import Brainfuck.Proofs.Futures
import Brainfuck.Proofs.Scans

/-!
# A program inside another

`Window q p lo hi rank place` says that the program `q` stands in the program `p` from position `lo`
to position `hi`, where `p` may have comments that `q` lacks. `rank` takes a position of `p` to the
one of `q` that it has reached, and `place` takes a position of `q` to where it stands in `p`.

What stands before `lo` and behind `hi` does not matter as long as no bracket of `q` finds its
partner there. Then both searches find in `p` what they find in `q` (`Window.scanRight`,
`Window.openBefore`), so an operator does the same in both programs or fails in both
(`Window.perform`), and a machine of `p` inside the window follows one of `q`, past the comments that
`q` lacks (`Window.tracks`), and halts where that one does, at the place of its position
(`Window.halts`).
-/

namespace Brainfuck

/-- The failure, with the position that it points at moved. -/
def Failure.relocate (place : Nat → Nat) : Failure → Failure
  | .fault cause => .fault (cause.relocate place)
  | .crash => .crash

theorem Result.relocate_ofFailure (place : Nat → Nat) (failure : Failure) :
    (Result.ofFailure failure).relocate place = .ofFailure (failure.relocate place) := by
  cases failure <;> rfl

namespace Program

/-- A position of `p` is one of `q` too. -/
structure Kept (q p : Program) (rank place : Nat → Nat) (ip : Nat) : Prop where
  op?_eq : q.op? (rank ip) = p.op? ip
  rank_succ : rank (ip + 1) = rank ip + 1
  place_rank : place (rank ip) = ip

/-- The positions from `lo` to `hi` of `p` are the program `q`, but for comments. -/
structure Window (q p : Program) (lo hi : Nat) (rank place : Nat → Nat) : Prop where
  le : lo ≤ hi
  le_size : hi ≤ p.size
  first : rank lo = 0
  last : rank hi = q.size
  each : ∀ {ip}, lo ≤ ip → ip < hi →
    Kept q p rank place ip ∨ p.op? ip = none ∧ rank (ip + 1) = rank ip
  /-- No `[` before the window waits for its `]`. -/
  before : ∀ depth, p.openBefore depth lo = none
  /-- No `]` behind the window closes a loop, or no `[` in it waits for one. -/
  behind : (∀ depth, p.scanRight depth hi = none) ∨
    ∀ k, q.op? k = some .openLoop → q.scanRight 0 (k + 1) ≠ none

namespace Window

variable {q p : Program} {lo hi ip : Nat} {rank place : Nat → Nat}

theorem rank_mono (h : q.Window p lo hi rank place) {ip' : Nat} (hlo : lo ≤ ip) (hle : ip ≤ ip')
    (hhi : ip' ≤ hi) : rank ip ≤ rank ip' := by
  induction hle with
  | refl => exact Nat.le_refl _
  | @step ip' hle ih =>
    have hrank := ih (Nat.le_of_succ_le hhi)
    show rank ip ≤ rank (ip' + 1)
    rcases h.each (Nat.le_trans hlo hle) hhi with kept | ⟨-, hnext⟩
    · have hnext := kept.rank_succ
      omega
    · omega

/-- A position that is one of the other program too is inside that program. -/
theorem rank_lt (h : q.Window p lo hi rank place) (hlo : lo ≤ ip) (hhi : ip < hi)
    (kept : Kept q p rank place ip) : rank ip < q.size := by
  have hle := h.rank_mono (Nat.le_succ_of_le hlo) hhi (Nat.le_refl hi)
  rw [kept.rank_succ, h.last] at hle
  exact hle

/-- Where an operator stands in the window the other program has it too. -/
theorem kept_of_op? (h : q.Window p lo hi rank place) (hlo : lo ≤ ip) (hhi : ip < hi) {op : Op}
    (hop : p.op? ip = some op) : Kept q p rank place ip := by
  rcases h.each hlo hhi with kept | ⟨hnone, -⟩
  · exact kept
  · rw [hop] at hnone
    cases hnone

/-! ## The scans -/

/-- The scan to the right finds the same `]` in both programs, or in `q` none, and in `p` it goes on
behind the window. -/
theorem scanRight (h : q.Window p lo hi rank place) (hlo : lo ≤ ip) (hhi : ip ≤ hi)
    (depth : Nat) :
    (∃ pos, lo ≤ pos ∧ pos < hi ∧ p.op? pos = some .closeLoop ∧
      p.scanRight depth ip = some pos ∧ q.scanRight depth (rank ip) = some (rank pos)) ∨
    (q.scanRight depth (rank ip) = none ∧
      ∃ depth', p.scanRight depth ip = p.scanRight depth' hi) := by
  obtain ⟨left, hleft⟩ := Nat.exists_eq_add_of_le hhi
  induction left generalizing ip depth with
  | zero =>
    obtain rfl : ip = hi := hleft.symm
    exact .inr ⟨scanRight_of_size_le (Nat.le_of_eq h.last.symm) depth, depth, rfl⟩
  | succ left ih =>
    have hlt : ip < hi := by omega
    have hsize : ip < p.size := Nat.lt_of_lt_of_le hlt h.le_size
    have hleft' : hi = ip + 1 + left := by omega
    have ih := fun depth => ih (Nat.le_succ_of_le hlo) hlt depth hleft'
    cases hop : p.op? ip with
    | none =>
      rw [scanRight_other hsize (by simp [hop]) (by simp [hop])]
      rcases h.each hlo hlt with kept | ⟨-, hrank⟩
      · have hop' := kept.op?_eq.trans hop
        rw [scanRight_other (h.rank_lt hlo hlt kept) (by simp [hop']) (by simp [hop']),
          ← kept.rank_succ]
        exact ih depth
      · rw [← hrank]
        exact ih depth
    | some op =>
      have kept := h.kept_of_op? hlo hlt hop
      have hop' := kept.op?_eq.trans hop
      have hrank := kept.rank_succ
      by_cases hopen : op = .openLoop
      · subst hopen
        rw [scanRight_open hop, scanRight_open hop', ← hrank]
        exact ih (depth + 1)
      · by_cases hclose : op = .closeLoop
        · subst hclose
          cases depth with
          | zero =>
            exact .inl ⟨ip, hlo, hlt, hop, scanRight_close_zero hop, scanRight_close_zero hop'⟩
          | succ depth =>
            rw [scanRight_close_succ hop, scanRight_close_succ hop', ← hrank]
            exact ih depth
        · rw [scanRight_other hsize (by simp [hop, hopen]) (by simp [hop, hclose]),
            scanRight_other (lt_size_of_op?_eq_some hop') (by simp [hop', hopen])
              (by simp [hop', hclose]), ← hrank]
          exact ih depth

/-- The scan to the left finds the same `[` in both programs, or none in both. -/
theorem openBefore (h : q.Window p lo hi rank place) (hlo : lo ≤ ip) (hhi : ip ≤ hi)
    (depth : Nat) :
    (∃ pos, lo ≤ pos ∧ pos < hi ∧ p.op? pos = some .openLoop ∧
      p.openBefore depth ip = some pos ∧ q.openBefore depth (rank ip) = some (rank pos)) ∨
    (q.openBefore depth (rank ip) = none ∧ p.openBefore depth ip = none) := by
  induction hlo generalizing depth with
  | refl =>
    refine .inr ⟨?_, h.before depth⟩
    rw [h.first, Program.openBefore]
  | @step ip hlo ih =>
    have hlt : ip < hi := hhi
    have ih := ih (Nat.le_of_lt hlt)
    cases hop : p.op? ip with
    | none =>
      rw [openBefore_other (by simp [hop]) (by simp [hop])]
      rcases h.each hlo hlt with kept | ⟨-, hrank⟩
      · have hop' := kept.op?_eq.trans hop
        rw [kept.rank_succ, openBefore_other (by simp [hop']) (by simp [hop'])]
        exact ih depth
      · rw [hrank]
        exact ih depth
    | some op =>
      have kept := h.kept_of_op? hlo hlt hop
      have hop' := kept.op?_eq.trans hop
      rw [kept.rank_succ]
      by_cases hclose : op = .closeLoop
      · subst hclose
        rw [openBefore_close hop, openBefore_close hop']
        exact ih (depth + 1)
      · by_cases hopen : op = .openLoop
        · subst hopen
          cases depth with
          | zero =>
            exact .inl ⟨ip, hlo, hlt, hop, openBefore_open_zero hop, openBefore_open_zero hop'⟩
          | succ depth =>
            rw [openBefore_open_succ hop, openBefore_open_succ hop']
            exact ih depth
        · rw [openBefore_other (by simp [hop, hopen]) (by simp [hop, hclose]),
            openBefore_other (by simp [hop', hopen]) (by simp [hop', hclose])]
          exact ih depth

/-- A `[` in the window finds its `]` in `p` where it finds it in `q`, and fails if it does there. -/
theorem loopExit (h : q.Window p lo hi rank place) (hlo : lo ≤ ip) (hhi : ip < hi)
    (hop : p.op? ip = some .openLoop) :
    (∃ pos, lo ≤ pos ∧ pos < hi ∧ p.op? pos = some .closeLoop ∧ p.loopExit ip = .ok pos ∧
      q.loopExit (rank ip) = .ok (rank pos)) ∨
    ∃ failure, q.loopExit (rank ip) = .error failure ∧
      p.loopExit ip = .error (failure.relocate place) := by
  have kept := h.kept_of_op? hlo hhi hop
  rw [Program.loopExit, Program.loopExit, closeFrom_eq, closeFrom_eq, ← kept.rank_succ]
  rcases h.scanRight (Nat.le_succ_of_le hlo) hhi 0 with
    ⟨pos, hpos, hpos', hclose, hscan, hscan'⟩ | ⟨hnone, depth', hscan⟩
  · exact .inl ⟨pos, hpos, hpos', hclose, by rw [hscan], by rw [hscan']⟩
  · have hnone' : p.scanRight depth' hi = none := by
      rcases h.behind with hbehind | hclosed
      · exact hbehind depth'
      · rw [kept.rank_succ] at hnone
        exact absurd hnone (hclosed _ (kept.op?_eq.trans hop))
    refine .inr ⟨_, by rw [hnone], ?_⟩
    rw [hscan, hnone', Failure.relocate, Fault.relocate, kept.place_rank]

/-- A `]` in the window finds its `[` in `p` where it finds it in `q`, and fails if it does there. -/
theorem loopEntry (h : q.Window p lo hi rank place) (hlo : lo ≤ ip) (hhi : ip < hi)
    (hop : p.op? ip = some .closeLoop) :
    (∃ pos, lo ≤ pos ∧ pos < hi ∧ p.op? pos = some .openLoop ∧ p.loopEntry ip = .ok pos ∧
      q.loopEntry (rank ip) = .ok (rank pos)) ∨
    ∃ failure, q.loopEntry (rank ip) = .error failure ∧
      p.loopEntry ip = .error (failure.relocate place) := by
  have kept := h.kept_of_op? hlo hhi hop
  have hsize := Nat.le_of_lt (lt_size_of_op?_eq_some hop)
  have hsize' := Nat.le_of_lt (lt_size_of_op?_eq_some (kept.op?_eq.trans hop))
  rw [Program.loopEntry, Program.loopEntry, if_neg (Nat.not_lt.mpr hsize),
    if_neg (Nat.not_lt.mpr hsize')]
  rcases h.openBefore hlo (Nat.le_of_lt hhi) 0 with
    ⟨pos, hpos, hpos', hopen, hscan, hscan'⟩ | ⟨hnone, hnone'⟩
  · exact .inl ⟨pos, hpos, hpos', hopen, by rw [hscan], by rw [hscan']⟩
  · refine .inr ⟨_, by rw [hnone], ?_⟩
    rw [hnone', Failure.relocate, Fault.relocate, kept.place_rank]

end Window

end Program

/-! ## One operator -/

/-- The machine, with its position moved. -/
def Machine.move (place : Nat → Nat) (m : Machine) : Machine :=
  { m with ip := place m.ip }

namespace Program.Window

variable {q p : Program} {lo hi : Nat} {rank place : Nat → Nat} {m m' : Machine}
  {input : List UInt8} {f : Future}

/-- An operator in the window does the same in both programs and leads to a position of the window,
or it fails in both. -/
theorem perform (h : q.Window p lo hi rank place) {op : Op} (cell : UInt8) (hlo : lo ≤ m.ip)
    (hhi : m.ip < hi) (hop : p.op? m.ip = some op) :
    (∃ m', m.perform p cell op = .ok m' ∧ (m.move rank).perform q cell op = .ok (m'.move rank) ∧
      lo ≤ m'.ip ∧ m'.ip ≤ hi) ∨
    ∃ failure, (m.move rank).perform q cell op = .error failure ∧
      m.perform p cell op = .error (failure.relocate place) := by
  obtain ⟨-, hrank, hplace⟩ := h.kept_of_op? hlo hhi hop
  obtain ⟨tape, output, ip⟩ := m
  have hnext : lo ≤ ip + 1 := Nat.le_succ_of_le hlo
  cases op with
  | right =>
    by_cases hroom : tape.pointer + 1 < tape.cells.size
    · exact .inl ⟨⟨{ tape with pointer := tape.pointer + 1 }, output, ip + 1⟩,
        by simp [Machine.perform, Tape.moveRight, hroom],
        by simp [Machine.move, Machine.perform, Tape.moveRight, hroom, hrank], hnext, hhi⟩
    · exact .inr ⟨.fault (.offTape (rank ip) tape.pointer '>'),
        by simp [Machine.move, Machine.perform, Tape.moveRight, hroom],
        by simp [Machine.perform, Tape.moveRight, hroom, Failure.relocate, Fault.relocate, hplace]⟩
  | left =>
    by_cases hroom : 0 < tape.pointer
    · exact .inl ⟨⟨{ tape with pointer := tape.pointer - 1 }, output, ip + 1⟩,
        by simp [Machine.perform, Tape.moveLeft, hroom],
        by simp [Machine.move, Machine.perform, Tape.moveLeft, hroom, hrank], hnext, hhi⟩
    · exact .inr ⟨.fault (.offTape (rank ip) tape.pointer '<'),
        by simp [Machine.move, Machine.perform, Tape.moveLeft, hroom],
        by simp [Machine.perform, Tape.moveLeft, hroom, Failure.relocate, Fault.relocate, hplace]⟩
  | increment =>
    exact .inl ⟨⟨tape.increment, output, ip + 1⟩, rfl,
      by simp [Machine.move, Machine.perform, hrank], hnext, hhi⟩
  | decrement =>
    exact .inl ⟨⟨tape.decrement, output, ip + 1⟩, rfl,
      by simp [Machine.move, Machine.perform, hrank], hnext, hhi⟩
  | print =>
    exact .inl ⟨⟨tape, output.push cell, ip + 1⟩, rfl,
      by simp [Machine.move, Machine.perform, Machine.print, hrank], hnext, hhi⟩
  | read => exact .inl ⟨⟨tape, output, ip⟩, rfl, rfl, hlo, Nat.le_of_lt hhi⟩
  | openLoop =>
    by_cases hcell : cell = 0
    · rcases h.loopExit hlo hhi hop with ⟨pos, hpos, hpos', hclose, hexit, hexit'⟩ |
        ⟨failure, hexit', hexit⟩
      · obtain ⟨-, hrank', -⟩ := h.kept_of_op? hpos hpos' hclose
        exact .inl ⟨⟨tape, output, pos + 1⟩, by simp [Machine.perform, hcell, hexit],
          by simp [Machine.move, Machine.perform, hcell, hexit', hrank'],
          Nat.le_succ_of_le hpos, hpos'⟩
      · exact .inr ⟨failure, by simp [Machine.move, Machine.perform, hcell, hexit'],
          by simp [Machine.perform, hcell, hexit]⟩
    · exact .inl ⟨⟨tape, output, ip + 1⟩, by simp [Machine.perform, hcell],
        by simp [Machine.move, Machine.perform, hcell, hrank], hnext, hhi⟩
  | closeLoop =>
    by_cases hcell : cell = 0
    · exact .inl ⟨⟨tape, output, ip + 1⟩, by simp [Machine.perform, hcell],
        by simp [Machine.move, Machine.perform, hcell, hrank], hnext, hhi⟩
    · rcases h.loopEntry hlo hhi hop with ⟨pos, hpos, hpos', hopen, hentry, hentry'⟩ |
        ⟨failure, hentry', hentry⟩
      · obtain ⟨-, hrank', -⟩ := h.kept_of_op? hpos hpos' hopen
        exact .inl ⟨⟨tape, output, pos + 1⟩, by simp [Machine.perform, hcell, hentry],
          by simp [Machine.move, Machine.perform, hcell, hentry', hrank'],
          Nat.le_succ_of_le hpos, hpos'⟩
      · exact .inr ⟨failure, by simp [Machine.move, Machine.perform, hcell, hentry'],
          by simp [Machine.perform, hcell, hentry]⟩

/-! ## Machines -/

/-- The machine of `p` is inside the window, where the one of `q` is. -/
structure Inside (lo hi : Nat) (rank : Nat → Nat) (m m' : Machine) : Prop where
  eq : m = m'.move rank
  lo_le : lo ≤ m'.ip
  le_hi : m'.ip ≤ hi
  inBounds : m'.tape.InBounds

theorem Inside.rank_ip (h : Inside lo hi rank m m') : m.ip = rank m'.ip := by
  rw [h.eq]
  rfl

/-- A machine in the window goes past the comments that `q` lacks, to a position that `q` has or to
the end of the window. -/
theorem skips (h : q.Window p lo hi rank place) (hinside : Inside lo hi rank m m')
    (input : List UInt8) : ∃ n machine, Sequential.Path p n ⟨m', input⟩ [] ⟨machine, input⟩ ∧
      Inside lo hi rank m machine ∧
      (machine.ip = hi ∨ machine.ip < hi ∧ Kept q p rank place machine.ip) := by
  obtain ⟨left, hleft⟩ := Nat.exists_eq_add_of_le hinside.le_hi
  induction left generalizing m' with
  | zero => exact ⟨0, m', .nil, hinside, .inl hleft.symm⟩
  | succ left ih =>
    have hlt : m'.ip < hi := by omega
    rcases h.each hinside.lo_le hlt with kept | ⟨hop, hrank⟩
    · exact ⟨0, m', .nil, hinside, .inr ⟨hlt, kept⟩⟩
    · have hstep : Sequential.step p ⟨m', input⟩ = .next ⟨m'.skip, input⟩ :=
        Sequential.Does.step_eq (.comment (Nat.lt_of_lt_of_le hlt h.le_size) hop) hinside.inBounds
      have hskip : Inside lo hi rank m m'.skip := by
        refine ⟨?_, Nat.le_succ_of_le hinside.lo_le, hlt, hinside.inBounds⟩
        rw [hinside.eq, Machine.move, Machine.move]
        exact congrArg (Machine.mk _ _) hrank.symm
      have hleft' : hi = m'.ip + 1 + left := by omega
      obtain ⟨n, machine, path, hinside', hstops⟩ := ih hskip hleft'
      have hpath := Sequential.Path.cons hstep path
      rw [Sequential.completion?, hop] at hpath
      exact ⟨n + 1, machine, hpath, hinside', hstops⟩

/-- At the end of the window the other program is over. -/
theorem completed (h : q.Window p lo hi rank place) (hinside : Inside lo hi rank m m')
    (hend : m'.ip = hi) (input : List UInt8) : Sequential.step q ⟨m, input⟩ = .completed := by
  have hip : m.ip = q.size := by rw [hinside.rank_ip, hend, h.last]
  have hm : m.tape.InBounds := by
    rw [hinside.eq]
    exact hinside.inBounds
  exact Sequential.Does.step_eq (.completed (Nat.le_of_eq hip.symm)) hm

/-- At a position that `q` has too both machines take the same step. -/
theorem step (h : q.Window p lo hi rank place) (hinside : Inside lo hi rank m m')
    (hhi : m'.ip < hi) (kept : Kept q p rank place m'.ip) {u : Sequential}
    (hnext : Sequential.step q ⟨m, input⟩ = .next u) :
    ∃ machine, Sequential.step p ⟨m', input⟩ = .next ⟨machine, u.input⟩ ∧
      Inside lo hi rank u.machine machine := by
  have hbounds := hinside.inBounds
  have hlo := hinside.lo_le
  obtain rfl := hinside.eq
  have hnextIp : lo ≤ m'.ip + 1 := Nat.le_succ_of_le hlo
  have hop := kept.op?_eq
  cases Sequential.does_of_step_eq hnext hbounds with
  | comment hip hop' =>
    have hop' : q.op? (rank m'.ip) = none := hop'
    have does : Sequential.Does p ⟨m', input⟩ (.next ⟨m'.skip, input⟩) :=
      .comment (Nat.lt_of_lt_of_le hhi h.le_size) (hop.symm.trans hop')
    refine ⟨m'.skip, does.step_eq hbounds, ?_, hnextIp, hhi, hbounds⟩
    exact congrArg (Machine.mk _ _) kept.rank_succ.symm
  | @reads value rest hop' hinput =>
    have hop' : q.op? (rank m'.ip) = some .read := hop'
    have does : Sequential.Does p ⟨m', input⟩ (.next ⟨m'.accept value, rest⟩) :=
      .reads (hop.symm.trans hop') hinput
    refine ⟨m'.accept value, does.step_eq hbounds, ?_, hnextIp, hhi, Tape.InBounds.set hbounds _⟩
    exact congrArg (Machine.mk _ _) kept.rank_succ.symm
  | @performs op cell machine hop' hread hcell hmachine =>
    have hop' : p.op? m'.ip = some op := hop.symm.trans hop'
    rcases h.perform cell hlo hhi hop' with ⟨machine', hperform, hperform', hlo', hhi'⟩ |
      ⟨failure, hfailure, -⟩
    · cases hmachine.symm.trans hperform'
      exact ⟨machine', Sequential.Does.step_eq (.performs hop' hread hcell hperform) hbounds, rfl,
        hlo', hhi', Machine.perform_inBounds hbounds hperform⟩
    · cases hmachine.symm.trans hfailure

/-- The machine in the window follows the one of the program that stands there. -/
theorem tracks (h : q.Window p lo hi rank place) :
    Sequential.Tracks q p (Inside lo hi rank) where
  step := by
    intro m m' input u hinside hnext
    obtain ⟨n, machine, path, hinside', hstops⟩ := h.skips hinside input
    rcases hstops with hend | ⟨hhi, kept⟩
    · rw [h.completed hinside' hend input] at hnext
      cases hnext
    · obtain ⟨machine', hstep, hinside''⟩ := h.step hinside' hhi kept hnext
      exact ⟨n, _, machine', path.snoc hstep, hinside''⟩

/-- The machine in the window halts where the other one does, at the place of its position, unless
that one comes to its end and the window ends before the program does. -/
theorem halts (h : q.Window p lo hi rank place) (hinside : Inside lo hi rank m m')
    (hhalts : Sequential.Halts q ⟨m, input⟩ f) (hend : hi = p.size ∨ ∀ o, f ≠ .returns (.done o)) :
    ∃ n done t, Sequential.Path p n ⟨m', input⟩ done t ∧
      Sequential.Halts p t (f.relocate place) := by
  obtain ⟨n, machine, path, hinside', hstops⟩ := h.skips hinside input
  refine ⟨n, [], _, path, ?_⟩
  have hbounds := hinside'.inBounds
  obtain rfl := hinside'.eq
  -- but for the end of its program, the other machine halts only at a position of its own
  have hkept : ∀ {step}, Sequential.step q ⟨machine.move rank, input⟩ = step → step ≠ .completed →
      machine.ip < hi ∧ Kept q p rank place machine.ip := by
    rintro step hstep hne
    exact hstops.resolve_left fun hend =>
      hne (hstep.symm.trans (h.completed hinside' hend input))
  cases hhalts with
  | starves starved =>
    obtain ⟨hhi, kept⟩ := hkept starved nofun
    cases Sequential.does_of_step_eq starved hbounds with
    | starved hop hinput =>
      have hop' : p.op? machine.ip = some .read := kept.op?_eq.symm.trans hop
      have hstep : Sequential.step p ⟨machine, input⟩ = .starved :=
        Sequential.Does.step_eq (.starved hop' hinput) hbounds
      have hplace : Future.relocate place (.waits (machine.move rank).ip) = .waits machine.ip :=
        congrArg Future.waits kept.place_rank
      rw [hplace]
      exact .starves hstep
  | ends ends =>
    cases ends with
    | completed finish =>
      cases Sequential.does_of_step_eq finish hbounds with
      | completed hip =>
        have hip : q.size ≤ rank machine.ip := hip
        have hhi : machine.ip = hi := hstops.resolve_right fun ⟨hhi, kept⟩ =>
          Nat.not_lt.mpr hip (h.rank_lt hinside'.lo_le hhi kept)
        obtain rfl : hi = p.size := hend.resolve_right fun hnone => hnone _ rfl
        have hsame : (machine.move rank).outcome q = machine.outcome p := by
          simp [Machine.outcome, Machine.move, hip, Nat.le_of_eq hhi.symm]
        rw [hsame]
        exact .ends (.of_size_le (s := ⟨machine, input⟩) (Nat.le_of_eq hhi.symm) hbounds)
    | @failed failure failed =>
      obtain ⟨hhi, kept⟩ := hkept failed nofun
      cases Sequential.does_of_step_eq failed hbounds with
      | @fails op cell _ hop hread hcell hfailure =>
        have hop' : p.op? machine.ip = some op := kept.op?_eq.symm.trans hop
        rcases h.perform cell hinside'.lo_le hhi hop' with ⟨machine', -, hperform, -⟩ |
          ⟨failure', hfailure', hperform⟩
        · cases hfailure.symm.trans hperform
        · cases hfailure.symm.trans hfailure'
          rw [Future.relocate, Future.map, Result.relocate_ofFailure]
          exact .ends (.failed
            (Sequential.Does.step_eq (.fails hop' hread hcell hperform) hbounds))

/-- What becomes of the machine of `q` becomes of the one in the window, at the place of its position,
unless it comes to its end and the window ends before the program does. -/
theorem meets (h : q.Window p lo hi rank place) (hinside : Inside lo hi rank m m')
    {stream : ByteStream} (hmeets : m.Meets q stream f)
    (hend : hi = p.size ∨ ∀ o, f ≠ .returns (.done o)) : m'.Meets p stream (f.relocate place) :=
  h.tracks.meets hinside hmeets _ _ fun hinside' halts => h.halts hinside' halts hend

end Program.Window

end Brainfuck
