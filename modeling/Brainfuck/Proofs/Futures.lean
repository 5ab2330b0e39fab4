import Brainfuck.Machine.Future
import Brainfuck.Proofs.Sequential

/-!
# The future of a machine

`Machine.Meets` says what becomes of a machine that reads a stream: it halts, at the end of its
program, at an operator that fails, or at a `,` behind the end of the stream, or it takes steps
without end. Every machine has such a future (`Machine.exists_meets`).

Two programs are compared step by step. If every step of one machine is answered by at least one of
another (`Sequential.Tracks`), then by induction every path is (`Tracks.path`), and whatever the
first machine meets the second meets too, provided that it halts where the first one does
(`Tracks.meets`). The second may take more steps, past comments that the first does not have.
-/

namespace Brainfuck

namespace Sequential

variable {p p' : Program} {s t u : Sequential} {f : Future}

/-- A state without a successor, with what a run comes to there if no more bytes arrive. -/
inductive Halts (p : Program) (s : Sequential) : Future → Prop where
  | ends {r : Result} (ends : Ends p s r) : Halts p s (.returns r)
  | starves (starved : s.step p = .starved) : Halts p s (.waits s.machine.ip)

/-- A state has a successor or halts. -/
theorem next_or_halts (p : Program) (s : Sequential) :
    (∃ t, s.step p = .next t) ∨ ∃ f, Halts p s f := by
  cases h : s.step p with
  | next t => exact .inl ⟨t, rfl⟩
  | completed => exact .inr ⟨_, .ends (.completed h)⟩
  | starved => exact .inr ⟨_, .starves h⟩
  | failed failure => exact .inr ⟨_, .ends (.failed h)⟩

/-- A machine that waits for a byte has a step when one arrives. -/
theorem exists_next_of_starved (hs : s.machine.tape.InBounds) (hstarved : s.step p = .starved)
    (value : UInt8) : ∃ t, (s.feed [value]).step p = .next t := by
  cases does_of_step_eq hstarved hs with
  | starved hop hinput =>
    have does : Does p (s.feed [value]) (.next ⟨s.machine.accept value, []⟩) :=
      .reads hop (by rw [feed_input, hinput]; rfl)
    exact ⟨_, does.step_eq hs⟩

end Sequential

/-! ## On a stream -/

section

variable {p : Program} {m : Machine} {stream : ByteStream}

/-- What becomes of a machine that carries out a program and reads this stream. -/
inductive Machine.Meets (p : Program) (stream : ByteStream) (m : Machine) : Future → Prop where
  | halts {n k : Nat} {done : List Completion} {t : Sequential} {f : Future}
      (path : Sequential.Path p n ⟨m, stream.take k⟩ done t) (halts : Sequential.Halts p t f)
      (all : t.step p = .starved → stream.byte? k = none) : Meets p stream m f
  | endless (endless : ∀ n, ∃ k done t, Sequential.Path p n ⟨m, stream.take k⟩ done t) :
      Meets p stream m .endless

/-- A path goes on when more of the stream is there. -/
theorem Sequential.Path.take {n k k' : Nat} {done : List Completion} {t : Sequential}
    (path : Path p n ⟨m, stream.take k⟩ done t) (hm : m.tape.InBounds) (hle : k ≤ k') :
    ∃ more, stream.take k' = stream.take k ++ more ∧
      Path p n ⟨m, stream.take k'⟩ done (t.feed more) := by
  obtain ⟨more, hmore⟩ := stream.take_prefix hle
  refine ⟨more, hmore.symm, ?_⟩
  have hpath := path.feed more hm
  rwa [Sequential.feed, hmore] at hpath

/-- Two paths on beginnings of the stream are paths on one beginning. -/
theorem Sequential.Path.meet {n n' k k' : Nat} {done done' : List Completion} {t t' : Sequential}
    (path : Path p n ⟨m, stream.take k⟩ done t) (hm : m.tape.InBounds)
    (path' : Path p n' ⟨m, stream.take k'⟩ done' t') :
    ∃ j more more', Path p n ⟨m, stream.take j⟩ done (t.feed more) ∧
      Path p n' ⟨m, stream.take j⟩ done' (t'.feed more') := by
  obtain ⟨more, -, hpath⟩ := path.take hm (Nat.le_max_left k k')
  obtain ⟨more', -, hpath'⟩ := path'.take hm (Nat.le_max_right k k')
  exact ⟨_, more, more', hpath, hpath'⟩

/-- Every machine has a future. -/
theorem Machine.exists_meets (p : Program) (stream : ByteStream) (hm : m.tape.InBounds) :
    ∃ f, m.Meets p stream f := by
  by_cases hendless : ∀ n, ∃ k done t, Sequential.Path p n ⟨m, stream.take k⟩ done t
  · exact ⟨_, .endless hendless⟩
  · -- the longest path there is ends in a state that halts
    obtain ⟨n, ⟨k, done, t, path⟩, hlast⟩ : ∃ n,
        (∃ k done t, Sequential.Path p n ⟨m, stream.take k⟩ done t) ∧
        ¬ ∃ k done t, Sequential.Path p (n + 1) ⟨m, stream.take k⟩ done t := by
      refine Classical.byContradiction fun hnone => hendless fun n => ?_
      induction n with
      | zero => exact ⟨0, [], _, .nil⟩
      | succ n ih => exact Classical.byContradiction fun hn => hnone ⟨n, ih, hn⟩
    rcases Sequential.next_or_halts p t with ⟨u, hnext⟩ | ⟨f, halts⟩
    · exact absurd ⟨k, _, u, path.snoc hnext⟩ hlast
    · refine ⟨f, .halts path halts fun hstarved => ?_⟩
      cases hbyte : stream.byte? k with
      | none => rfl
      | some value =>
        obtain ⟨more, hmore, hpath⟩ := path.take hm (Nat.le_succ k)
        obtain rfl : more = [value] := by simpa [ByteStream.take_succ, hbyte] using hmore.symm
        obtain ⟨u, hnext⟩ :=
          Sequential.exists_next_of_starved (path.inBounds hm) hstarved value
        exact absurd ⟨k + 1, _, u, hpath.snoc hnext⟩ hlast

variable {n k : Nat} {done : List Completion} {t : Sequential}

/-- A path takes a beginning of the stream and leaves what follows. -/
theorem Sequential.Path.take_eq (path : Path p n ⟨m, stream.take k⟩ done t)
    (hm : m.tape.InBounds) : takenBytes done = stream.take (takenBytes done).length ∧
      t.input = (stream.drop (takenBytes done).length).take (k - (takenBytes done).length) := by
  have hinput : stream.take k = takenBytes done ++ t.input := path.input_eq hm
  have htaken := ByteStream.eq_take_of_prefix ⟨t.input, hinput.symm⟩
  have hle : (takenBytes done).length ≤ k := by
    have hk := stream.length_take_le k
    rw [hinput, List.length_append] at hk
    omega
  have hsplit := stream.take_add (takenBytes done).length (k - (takenBytes done).length)
  rw [Nat.add_sub_of_le hle, hinput, ← htaken] at hsplit
  exact ⟨htaken, List.append_cancel_left hsplit⟩

/-- A path on a stream goes on with one on what it has left of the stream, when as much has arrived
as both need. -/
theorem Sequential.Path.join (path : Path p n ⟨m, stream.take k⟩ done t) (hm : m.tape.InBounds)
    {n' j : Nat} {later : List Completion} {u : Sequential}
    (path' : Path p n' ⟨t.machine, (stream.drop (takenBytes done).length).take j⟩ later u) :
    ∃ k' more, (takenBytes done).length + j ≤ k' ∧
      Path p (n + n') ⟨m, stream.take k'⟩ (done ++ later) (u.feed more) ∧
      ((stream.drop (takenBytes done).length).byte? j = none → more = []) := by
  generalize hcount : (takenBytes done).length = count at path' ⊢
  have hmax : count + j ≤ max k (count + j) := Nat.le_max_right ..
  obtain ⟨_, -, here⟩ := path.take hm (Nat.le_max_left k (count + j))
  have hinput := (here.take_eq hm).2
  rw [hcount] at hinput
  have hj : j ≤ max k (count + j) - count := by omega
  obtain ⟨more, hmore, there⟩ := path'.take (path.inBounds hm) hj
  refine ⟨max k (count + j), more, hmax, here.trans ?_, fun hend => ?_⟩
  · rw [← hinput] at there
    exact there
  · rw [ByteStream.take_of_le hend hj] at hmore
    exact List.append_right_eq_self.mp hmore.symm

/-- What becomes of a machine is what becomes of it later on. -/
theorem Machine.Meets.of_path (path : Sequential.Path p n ⟨m, stream.take k⟩ done t)
    (hm : m.tape.InBounds) {f : Future}
    (h : t.machine.Meets p (stream.drop (takenBytes done).length) f) : m.Meets p stream f := by
  cases h with
  | @halts n' j later u _ path' halts all =>
    obtain ⟨k', more, hle, joined, hnil⟩ := path.join hm path'
    cases halts with
    | starves starved =>
      obtain rfl := hnil (all starved)
      rw [Sequential.feed_nil] at joined
      exact .halts joined (.starves starved) fun _ => ByteStream.byte?_of_le (all starved) hle
    | ends ends =>
      have hu := path'.inBounds (path.inBounds hm)
      exact .halts joined (.ends (ends.feed hu more)) fun hstarved =>
        absurd hstarved (ends.feed hu more).step_ne_starved
  | endless endless =>
    refine .endless fun n' => ?_
    obtain ⟨j, later, u, path'⟩ := endless n'
    obtain ⟨k', more, -, joined, -⟩ := path.join hm path'
    obtain ⟨done', u', shorter⟩ := joined.shorten (Nat.le_add_left n' n)
    exact ⟨k', done', u', shorter⟩

end

/-! ## One machine after another -/

namespace Sequential

variable {p p' : Program} {related : Machine → Machine → Prop} {m m' : Machine} {s t : Sequential}
  {stream : ByteStream} {n : Nat} {done : List Completion} {f : Future}

/-- Every step of the first program's machine is answered by steps of the second one's, at least
one, on the same input. -/
structure Tracks (p p' : Program) (related : Machine → Machine → Prop) : Prop where
  step : ∀ {m m' : Machine} {input : List UInt8} {u : Sequential}, related m m' →
    Sequential.step p ⟨m, input⟩ = .next u → ∃ n done machine,
      Path p' (n + 1) ⟨m', input⟩ done ⟨machine, u.input⟩ ∧ related u.machine machine

theorem Tracks.path (h : Tracks p p' related) (path : Path p n s done t)
    (hm : related s.machine m') : ∃ n' done' machine, n ≤ n' ∧
      Path p' n' ⟨m', s.input⟩ done' ⟨machine, t.input⟩ ∧ related t.machine machine := by
  induction path generalizing m' with
  | nil => exact ⟨0, [], m', Nat.le_refl 0, .nil, hm⟩
  | cons first _ ih =>
    obtain ⟨n₁, done₁, machine, path₁, hmachine⟩ := h.step hm first
    obtain ⟨n₂, done₂, machine', hle, path₂, hmachine'⟩ := ih hmachine
    exact ⟨n₁ + 1 + n₂, done₁ ++ done₂, machine', by omega, path₁.trans path₂, hmachine'⟩

/-- Whatever the first machine meets the second meets too, if it halts where the first one does. -/
theorem Tracks.meets (h : Tracks p p' related) (hm : related m m') (hmeets : m.Meets p stream f)
    (result : Result → Result) (place : Nat → Nat)
    (hhalts : ∀ {u u' : Machine} {input : List UInt8}, related u u' → Halts p ⟨u, input⟩ f →
      ∃ n done t, Path p' n ⟨u', input⟩ done t ∧ Halts p' t (f.map result place)) :
    m'.Meets p' stream (f.map result place) := by
  cases hmeets with
  | @halts n k done t _ path halts all =>
    obtain ⟨n₁, done₁, machine, -, path₁, hmachine⟩ := h.path path hm
    obtain ⟨n₂, done₂, t', path₂, halts'⟩ := hhalts hmachine halts
    refine .halts (path₁.trans path₂) halts' fun hstarved => all ?_
    -- a future that waits is what a machine without a byte has
    cases halts with
    | starves starved => exact starved
    | ends ends =>
      cases halts' with
      | ends ends' => exact absurd hstarved ends'.step_ne_starved
  | endless endless =>
    refine .endless fun n => ?_
    obtain ⟨k, done, t, path⟩ := endless n
    obtain ⟨n', done', machine, hle, path', -⟩ := h.path path hm
    obtain ⟨done'', u, hpath⟩ := path'.shorten hle
    exact ⟨k, done'', u, hpath⟩

end Sequential

end Brainfuck
