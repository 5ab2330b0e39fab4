import Brainfuck.Proofs.Brackets
import Brainfuck.Proofs.Sequential

/-!
# Blocks and paths

What the rules of `Block.Run` say a block does, the sequential machine does on the positions that
spell the block, and the other way round.

`Run.leads` goes from the rules to the machine, by induction on the derivation. The only thing that
is not step for step is the end of a round of a loop: by the rules the loop starts again, but the
machine is at the `]` and tests the cell there without going back to the `[`. So the statement is
about every position at which a block is entered (`Block.entries`), which for a loop is its `]` as
well as its beginning.

`run_or_path` goes from the machine to the rules: a block that has no ending keeps the machine going
for any number of steps. The induction is on that number, since before a loop starts again its test
has taken a step.
-/

namespace Brainfuck

/-- The sequential machine in the state of a block, at a position. -/
def Block.State.atPos (s : Block.State) (pos : Nat) : Sequential :=
  ⟨⟨s.tape, s.output, pos⟩, s.input⟩

namespace Block

open Brainfuck.Sequential (Path Does)

variable {p : Program} {s t : State} {e : Ending} {b rest body : Block} {op : Op}
  {lo hi pos start close : Nat}

/-- The positions at which the machine enters a block that stands from `lo` on. -/
def entries (lo : Nat) : Block → List Nat
  | .loop _ _ close _ => [lo, close]
  | _ => [lo]

theorem mem_entries (lo : Nat) (b : Block) : lo ∈ b.entries lo := by
  cases b <;> simp [entries]

/-- From this state the machine comes to the ending of a block that ends at position `hi`. -/
def Leads (p : Program) (hi : Nat) (u : Sequential) : Ending → Prop
  | .finished t => ∃ n done, Path p n u done (t.atPos hi)
  | .failed cause => ∃ n done v, Path p n u done v ∧ v.step p = .failed (.fault cause)
  | .starved pos t => ∃ n done, Path p n u done (t.atPos pos) ∧ (t.atPos pos).step p = .starved

theorem Leads.after {u v : Sequential} {n : Nat} {done : List Completion} (h : Leads p hi v e)
    (path : Path p n u done v) : Leads p hi u e := by
  cases e with
  | finished t =>
    obtain ⟨m, later, path'⟩ := h
    exact ⟨_, _, path.trans path'⟩
  | failed cause =>
    obtain ⟨m, later, w, path', failed⟩ := h
    exact ⟨_, _, w, path.trans path', failed⟩
  | starved pos t =>
    obtain ⟨m, later, path', starved⟩ := h
    exact ⟨_, _, path.trans path', starved⟩

/-- Where a block that does not come to its end would have ended is of no account. -/
theorem Leads.of_ends {u : Sequential} {hi' : Nat} (h : Leads p hi' u e)
    (ends : ∀ t, e ≠ .finished t) : Leads p hi u e := by
  cases e with
  | finished t => exact absurd rfl (ends t)
  | failed | starved => exact h

/-- A machine that has come to the end of a program, to an operator that fails, or to a `,` without
a byte goes no further. -/
theorem Leads.stuck {u : Sequential} (h : Leads p p.size u e) (hu : u.machine.tape.InBounds) :
    ∃ n done v, Path p n u done v ∧ Sequential.Stuck p v := by
  cases e with
  | finished t =>
    obtain ⟨n, done, path⟩ := h
    have ends := Sequential.Ends.of_size_le (s := t.atPos p.size) (Nat.le_refl _) (path.inBounds hu)
    exact ⟨n, done, _, path, ends.stuck⟩
  | failed cause =>
    obtain ⟨n, done, v, path, failed⟩ := h
    exact ⟨n, done, v, path, (Sequential.Ends.failed failed).stuck⟩
  | starved pos t =>
    obtain ⟨n, done, path, starved⟩ := h
    exact ⟨n, done, _, path, Sequential.stuck_of_starved starved⟩

/-! ## One position -/

theorem path_of_comments (h : p.Comments lo hi) (hs : s.tape.InBounds) :
    ∃ n done, Path p n (s.atPos lo) done (s.atPos hi) := by
  induction h with
  | nil => exact ⟨0, [], .nil⟩
  | cons hlt hop _ ih =>
    obtain ⟨n, done, path⟩ := ih
    exact ⟨_, _, .cons (Does.step_eq (.comment hlt hop) hs) path⟩

theorem step_of_finished (hs : s.tape.InBounds) (hop : p.op? pos = some op)
    (hopen : op ≠ .openLoop) (hclose : op ≠ .closeLoop) (h : s.apply pos op = .finished t) :
    (s.atPos pos).step p = .next (t.atPos (pos + 1)) := by
  obtain ⟨cell, hcell⟩ := hs.exists_current?
  have performs : ∀ {m : Machine}, op ≠ .read →
      (s.atPos pos).machine.perform p cell op = .ok m →
      (s.atPos pos).step p = .next ⟨m, s.input⟩ := fun hread hm =>
    Does.step_eq (.performs hop hread hcell hm) hs
  cases op with
  | right =>
    simp only [State.apply] at h
    split at h
    · next tape htape =>
      cases h
      exact performs (by decide) (by simp [State.atPos, Machine.perform, htape])
    · cases h
  | left =>
    simp only [State.apply] at h
    split at h
    · next tape htape =>
      cases h
      exact performs (by decide) (by simp [State.atPos, Machine.perform, htape])
    · cases h
  | increment => cases h; exact performs (by decide) rfl
  | decrement => cases h; exact performs (by decide) rfl
  | print =>
    cases h
    rw [performs (by decide) rfl, hcell]
    rfl
  | read =>
    simp only [State.apply] at h
    split at h
    · next value input hinput => cases h; exact Does.step_eq (.reads hop hinput) hs
    · cases h
  | openLoop => exact absurd rfl hopen
  | closeLoop => exact absurd rfl hclose

theorem step_of_failed {cause : Fault} (hs : s.tape.InBounds) (hop : p.op? pos = some op)
    (h : s.apply pos op = .failed cause) : (s.atPos pos).step p = .failed (.fault cause) := by
  obtain ⟨cell, hcell⟩ := hs.exists_current?
  have fails : ∀ {failure : Failure}, op ≠ .read →
      (s.atPos pos).machine.perform p cell op = .error failure →
      (s.atPos pos).step p = .failed failure := fun hread hm =>
    Does.step_eq (.fails hop hread hcell hm) hs
  cases op with
  | right =>
    simp only [State.apply] at h
    split at h
    · cases h
    · next fault hfault =>
      cases h
      exact fails (by decide) (by simp [State.atPos, Machine.perform, hfault])
  | left =>
    simp only [State.apply] at h
    split at h
    · cases h
    · next fault hfault =>
      cases h
      exact fails (by decide) (by simp [State.atPos, Machine.perform, hfault])
  | read =>
    simp only [State.apply] at h
    split at h <;> cases h
  | increment | decrement | print | openLoop | closeLoop => cases h

theorem step_of_starved {at' : Nat} (hs : s.tape.InBounds) (hop : p.op? pos = some op)
    (h : s.apply pos op = .starved at' t) :
    at' = pos ∧ t = s ∧ (s.atPos pos).step p = .starved := by
  cases op with
  | right | left =>
    simp only [State.apply] at h
    split at h <;> cases h
  | read =>
    simp only [State.apply] at h
    split at h
    · cases h
    · next hinput => cases h; exact ⟨rfl, rfl, Does.step_eq (.starved hop hinput) hs⟩
  | increment | decrement | print | openLoop | closeLoop => cases h

/-- Both brackets of a loop whose cell is zero go on behind the loop. -/
theorem step_of_zero (hs : s.tape.InBounds) (hopen : p.op? start = some .openLoop)
    (inner : Spans p body (start + 1) close) (hclose : p.op? close = some .closeLoop)
    (hpos : pos = start ∨ pos = close) (zero : s.tape.current? = some 0) :
    (s.atPos pos).step p = .next (s.atPos (close + 1)) := by
  rcases hpos with rfl | rfl
  · refine Does.step_eq (.performs hopen (by decide) zero ?_) hs
    simp [State.atPos, Machine.perform, inner.loopExit_eq hclose]
  · exact Does.step_eq (.performs hclose (by decide) zero rfl) hs

/-- Both brackets of a loop whose cell is not zero go on with its body. -/
theorem step_of_nonzero (hs : s.tape.InBounds) (hopen : p.op? start = some .openLoop)
    (inner : Spans p body (start + 1) close) (hclose : p.op? close = some .closeLoop)
    (hpos : pos = start ∨ pos = close) (nonzero : s.tape.current? ≠ some 0) :
    (s.atPos pos).step p = .next (s.atPos (start + 1)) := by
  obtain ⟨cell, hcell⟩ := hs.exists_current?
  have hne : cell ≠ 0 := by
    rintro rfl
    exact nonzero hcell
  rcases hpos with rfl | rfl
  · refine Does.step_eq (.performs hopen (by decide) hcell ?_) hs
    simp [State.atPos, Machine.perform, hne]
  · refine Does.step_eq (.performs hclose (by decide) hcell ?_) hs
    simp [State.atPos, Machine.perform, hne, Spans.loopEntry_eq hopen inner hclose]

/-! ## From the rules to the machine -/

/-- An operator that does its work. -/
theorem Spans.path_of_finished {at' : Nat} (h : Spans p (.single op at' rest) lo hi)
    (hs : s.tape.InBounds) (first : s.apply at' op = .finished t) :
    Spans p rest (at' + 1) hi ∧ t.tape.InBounds ∧
      ∃ n done, Path p (n + 1) (s.atPos lo) done (t.atPos (at' + 1)) := by
  cases h with
  | single skip hop hopen hclose later =>
    have hstep := step_of_finished hs hop hopen hclose first
    obtain ⟨n, done, path⟩ := path_of_comments skip hs
    exact ⟨later, Sequential.step_inBounds hstep hs, n, _, path.snoc hstep⟩

/-- An operator that does not. -/
theorem Spans.leads_of_ends {at' : Nat} (h : Spans p (.single op at' rest) lo hi)
    (hs : s.tape.InBounds) (first : s.apply at' op = e) (ends : ∀ t, e ≠ .finished t) :
    Leads p hi (s.atPos lo) e := by
  cases h with
  | single skip hop =>
    obtain ⟨n, done, path⟩ := path_of_comments skip hs
    refine Leads.after ?_ path
    cases e with
    | finished t => exact absurd rfl (ends t)
    | failed cause => exact ⟨0, [], _, .nil, step_of_failed hs hop first⟩
    | starved pos t =>
      obtain ⟨rfl, rfl, hstarved⟩ := step_of_starved hs hop first
      exact ⟨0, [], .nil, hstarved⟩

/-- From where a loop is entered the machine comes to one of its brackets. -/
theorem Spans.path_to_test (h : Spans p (.loop start body close rest) lo hi)
    (hs : s.tape.InBounds) (hpos : pos ∈ entries lo (.loop start body close rest)) :
    ∃ n done test, Path p n (s.atPos pos) done (s.atPos test) ∧ (test = start ∨ test = close) := by
  cases h with
  | loop skip =>
    simp only [entries, List.mem_cons, List.not_mem_nil, or_false] at hpos
    rcases hpos with rfl | rfl
    · obtain ⟨n, done, path⟩ := path_of_comments skip hs
      exact ⟨n, done, start, path, .inl rfl⟩
    · exact ⟨0, [], pos, .nil, .inr rfl⟩

/-- A loop that is over. -/
theorem Spans.path_of_zero (h : Spans p (.loop start body close rest) lo hi) (hs : s.tape.InBounds)
    (hpos : pos ∈ entries lo (.loop start body close rest)) (zero : s.tape.current? = some 0) :
    Spans p rest (close + 1) hi ∧
      ∃ n done, Path p (n + 1) (s.atPos pos) done (s.atPos (close + 1)) := by
  obtain ⟨n, done, test, path, htest⟩ := h.path_to_test hs hpos
  cases h with
  | loop _ hopen inner hclose later =>
    exact ⟨later, n, _, path.snoc (step_of_zero hs hopen inner hclose htest zero)⟩

/-- A loop that starts a round. -/
theorem Spans.path_of_nonzero (h : Spans p (.loop start body close rest) lo hi)
    (hs : s.tape.InBounds) (hpos : pos ∈ entries lo (.loop start body close rest))
    (nonzero : s.tape.current? ≠ some 0) :
    Spans p body (start + 1) close ∧
      ∃ n done, Path p (n + 1) (s.atPos pos) done (s.atPos (start + 1)) := by
  obtain ⟨n, done, test, path, htest⟩ := h.path_to_test hs hpos
  cases h with
  | loop _ hopen inner hclose _ =>
    exact ⟨inner, n, _, path.snoc (step_of_nonzero hs hopen inner hclose htest nonzero)⟩

/-- The machine comes to the ending that the rules give a block. -/
theorem Run.leads (h : Run b s e) (spans : Spans p b lo hi) (hs : s.tape.InBounds)
    (hpos : pos ∈ b.entries lo) : Leads p hi (s.atPos pos) e := by
  induction h generalizing lo hi pos with
  | done =>
    cases spans with
    | done skip =>
      obtain rfl : pos = lo := by simpa [entries] using hpos
      exact path_of_comments skip hs
  | single first _ ih =>
    obtain rfl : pos = lo := by simpa [entries] using hpos
    obtain ⟨later, ht, n, done, path⟩ := spans.path_of_finished hs first
    exact (ih later ht (mem_entries _ _)).after path
  | singleEnds first ends =>
    obtain rfl : pos = lo := by simpa [entries] using hpos
    exact spans.leads_of_ends hs first ends
  | loopOver zero _ ih =>
    obtain ⟨later, n, done, path⟩ := spans.path_of_zero hs hpos zero
    exact (ih later hs (mem_entries _ _)).after path
  | loopAgain nonzero _ _ once_ih again_ih =>
    obtain ⟨inner, n, done, path⟩ := spans.path_of_nonzero hs hpos nonzero
    obtain ⟨m, round, path'⟩ := once_ih inner hs (mem_entries _ _)
    have ht := path'.inBounds hs
    -- the round ends at the `]`, where the loop is entered again
    exact ((again_ih spans ht (by simp [entries])).after path').after path
  | loopEnds nonzero _ ends ih =>
    obtain ⟨inner, n, done, path⟩ := spans.path_of_nonzero hs hpos nonzero
    exact ((ih inner hs (mem_entries _ _)).of_ends ends).after path

/-! ## From the machine to the rules -/

/-- A block has an ending, or the machine goes on for any number of steps. -/
theorem run_or_path (n : Nat) (spans : Spans p b lo hi) (hs : s.tape.InBounds)
    (hpos : pos ∈ b.entries lo) :
    (∃ e, Run b s e) ∨ ∃ done u, Path p n (s.atPos pos) done u := by
  induction n generalizing b lo hi s pos with
  | zero => exact .inr ⟨[], _, .nil⟩
  | succ n ih =>
    -- a path that has taken a step and then goes on for `n` steps is long enough
    have goes_on : ∀ {m : Nat} {done : List Completion} {v : Sequential},
        Path p (m + 1) (s.atPos pos) done v → (∃ later u, Path p n v later u) →
        ∃ done u, Path p (n + 1) (s.atPos pos) done u := by
      intro m done v path h
      obtain ⟨later, u, path'⟩ := h
      exact (path.trans path').shorten (by omega)
    cases b with
    | done => exact .inl ⟨_, .done⟩
    | single op at' rest =>
      obtain rfl : pos = lo := by simpa [entries] using hpos
      by_cases hfinished : ∃ t, s.apply at' op = .finished t
      · obtain ⟨t, first⟩ := hfinished
        obtain ⟨later, ht, m, done, path⟩ := spans.path_of_finished hs first
        rcases ih later ht (mem_entries _ _) with ⟨e, run⟩ | hgoes
        · exact .inl ⟨e, .single first run⟩
        · exact .inr (goes_on path hgoes)
      · exact .inl ⟨_, .singleEnds rfl fun t ht => hfinished ⟨t, ht⟩⟩
    | loop start body close rest =>
      by_cases zero : s.tape.current? = some 0
      · obtain ⟨later, m, done, path⟩ := spans.path_of_zero hs hpos zero
        rcases ih later hs (mem_entries _ _) with ⟨e, run⟩ | hgoes
        · exact .inl ⟨e, .loopOver zero run⟩
        · exact .inr (goes_on path hgoes)
      · obtain ⟨inner, m, done, path⟩ := spans.path_of_nonzero hs hpos zero
        rcases ih inner hs (mem_entries _ _) with ⟨e, once⟩ | hgoes
        · by_cases hfinished : ∃ t, e = .finished t
          · obtain ⟨t, rfl⟩ := hfinished
            obtain ⟨k, round, path'⟩ := once.leads inner hs (mem_entries _ _)
            have hround := path.trans path'
            rw [show m + 1 + k = m + k + 1 by omega] at hround
            have hentry : close ∈ entries lo (.loop start body close rest) := by simp [entries]
            rcases ih spans (path'.inBounds hs) hentry with ⟨e, again⟩ | hgoes
            · exact .inl ⟨e, .loopAgain zero once again⟩
            · exact .inr (goes_on hround hgoes)
          · exact .inl ⟨e, .loopEnds zero once fun t ht => hfinished ⟨t, ht⟩⟩
        · exact .inr (goes_on path hgoes)

/-- Only a move fails, and the fault names it. -/
theorem Run.failed_at_move (h : Run b s e) (spans : Spans p b lo hi) {cause : Fault}
    (he : e = .failed cause) : ∃ pos pointer op, cause = .offTape pos pointer op.toChar ∧
      p.op? pos = some op ∧ (op = .right ∨ op = .left) := by
  induction h generalizing lo hi with
  | done => cases he
  | single _ _ ih =>
    cases spans with
    | single _ _ _ _ later => exact ih later he
  | @singleEnds op pos _ s _ first =>
    cases spans with
    | single _ hop =>
      rw [he] at first
      cases op with
      | right =>
        simp only [State.apply, Tape.moveRight] at first
        split at first <;> rename_i hmove <;> split at hmove <;> cases hmove <;> cases first
        exact ⟨pos, _, .right, rfl, hop, .inl rfl⟩
      | left =>
        simp only [State.apply, Tape.moveLeft] at first
        split at first <;> rename_i hmove <;> split at hmove <;> cases hmove <;> cases first
        exact ⟨pos, _, .left, rfl, hop, .inr rfl⟩
      | read =>
        simp only [State.apply] at first
        split at first <;> cases first
      | increment | decrement | print | openLoop | closeLoop => cases first
  | loopOver _ _ ih =>
    cases spans with
    | loop _ _ _ _ later => exact ih later he
  | loopAgain _ _ _ _ ih => exact ih spans he
  | loopEnds _ _ _ ih =>
    cases spans with
    | loop _ _ inner => exact ih inner he

end Block

end Brainfuck
