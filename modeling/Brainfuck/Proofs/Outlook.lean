import Brainfuck.Proofs.Faults
import Brainfuck.Proofs.Futures

/-!
# The future of a run

A run that goes on again and again and that nobody disturbs (`System.Steady`), whatever others do
meanwhile and however its input arrives (`System.Receives`), meets what its machine meets on the
stream of all its input: the result that it returns, the `,` at which it waits forever, or no end of
operators (`System.Meets`). A run meets one thing only (`Meets.unique`), and every machine has a
future, so the future of the machine is that of the run (`Pursues.destined`).

Why the run follows its machine: of the steps that the machine takes on some beginning of the stream
the run takes one after the other (`Reached.next`). Until it takes the next one it rests, since others
only push bytes, and each act of its own brings it nearer to the step once the byte is there that
the step may need (`Carries.rests_or_steps`).
-/

namespace Brainfuck

namespace System

variable {memory index distance time : Nat} {program : Program} {stream : ByteStream}
  {sched : Nat → Act} {s : System} {a : Act} {m : Machine} {t u : Sequential} {f g : Future}
  {r : Result}

/-! ## What a run meets -/

/-- What becomes of call number `index` on this schedule. -/
inductive Meets (index : Nat) (sched : Nat → Act) (s : System) : Future → Prop where
  | returns {r : Result} (result : Eventually sched s (·.result? index = some r)) :
      Meets index sched s (.returns r)
  | waits {pos : Nat} (waits : Eventually sched s (WaitsAt index pos)) :
      Meets index sched s (.waits pos)
  | endless (unbounded : ∀ k, ∃ time, k ≤ (s.completions index (upTo sched time)).length) :
      Meets index sched s .endless

/-- This, and nothing else, becomes of call number `index` on this schedule. -/
def Destined (index : Nat) (sched : Nat → Act) (s : System) (f : Future) : Prop :=
  ∀ g, s.Meets index sched g ↔ g = f

/-- A call that has a result completes no more operators. -/
theorem completion?_of_result (h : s.result? index = some r) (a : Act) :
    s.completion? index a = none := by
  rw [result?_eq] at h
  obtain ⟨stage, hstage, hresult⟩ := Option.bind_eq_some_iff.mp h
  unfold completion?
  rw [hstage]
  cases stage <;> cases hresult <;> split <;> rfl

/-- A call that waits at a `,` without a byte completes no operator. -/
theorem WaitsAt.completion?_eq {pos : Nat} (h : s.WaitsAt index pos) (a : Act) :
    s.completion? index a = none := by
  obtain ⟨⟨program, machine, stalled, phase⟩, hstage, rfl, hop, hqueue⟩ := h
  unfold completion?
  rw [hstage]
  have hop : program.op? machine.ip = some .read := hop
  have hnone : Worker.completion? s.engine.running s.engine.queue
      ⟨program, machine, stalled, phase⟩ = none := by
    unfold Worker.completion?
    split <;> simp_all
  split
  · exact hnone
  · rfl

/-- A call that completes no operators from some time on has completed all that it will. -/
theorem bounded_of_eventually {holds : System → Prop} (h : Eventually sched s holds)
    (hnone : ∀ {s : System}, holds s → ∀ a, s.completion? index a = none) :
    ¬ ∀ k, ∃ time, k ≤ (s.completions index (upTo sched time)).length := by
  intro hunbounded
  obtain ⟨time, hholds⟩ := h
  have hsame : ∀ more, s.completions index (upTo sched (time + more)) =
      s.completions index (upTo sched time) := by
    intro more
    induction more with
    | zero => rfl
    | succ more ih =>
      have hlast := hnone (hholds (time + more) (Nat.le_add_right ..))
      rw [← Nat.add_assoc, upTo_succ, completions_append, ih]
      simp [completions, hlast]
  obtain ⟨later, hlater⟩ := hunbounded ((s.completions index (upTo sched time)).length + 1)
  -- the operators completed up to that time are completed up to a still later one
  have hall := hsame later
  rw [Nat.add_comm, upTo_add, completions_append] at hall
  rw [← hall, List.length_append] at hlater
  omega

/-- A run meets one thing only. -/
theorem Meets.unique (h : s.Meets index sched f) (h' : s.Meets index sched g) : f = g := by
  cases h with
  | returns result =>
    cases h' with
    | returns result' =>
      obtain ⟨_, -, hr, hr'⟩ := result.and result' 0
      rw [Option.some.inj (hr.symm.trans hr')]
    | waits waits =>
      obtain ⟨_, -, hr, hwaits⟩ := result.and waits 0
      cases hr.symm.trans hwaits.result?_eq
    | endless unbounded =>
      exact absurd unbounded (bounded_of_eventually result completion?_of_result)
  | waits waits =>
    cases h' with
    | returns result =>
      obtain ⟨_, -, hwaits, hr⟩ := waits.and result 0
      cases hr.symm.trans hwaits.result?_eq
    | waits waits' =>
      obtain ⟨_, -, ⟨w, hstage, rfl, -⟩, ⟨w', hstage', rfl, -⟩⟩ := waits.and waits' 0
      cases hstage.symm.trans hstage'
      rfl
    | endless unbounded =>
      exact absurd unbounded (bounded_of_eventually waits WaitsAt.completion?_eq)
  | endless unbounded =>
    cases h' with
    | returns result =>
      exact absurd unbounded (bounded_of_eventually result completion?_of_result)
    | waits waits => exact absurd unbounded (bounded_of_eventually waits WaitsAt.completion?_eq)
    | endless => rfl

theorem Meets.destined (h : s.Meets index sched f) : s.Destined index sched f :=
  fun _ => ⟨fun hg => hg.unique h, fun hg => hg ▸ h⟩

/-! ## Schedules -/

/-- A schedule on which call number `index` goes on again and again and that does not disturb it. -/
structure Steady (index : Nat) (sched : Nat → Act) : Prop where
  fair : ∀ time, ∃ later, time ≤ later ∧ sched later = .advance index
  undisturbed : ∀ time, ¬ (sched time).Disturbs index

/-- A schedule from a time on. -/
def since (sched : Nat → Act) (time : Nat) : Nat → Act :=
  fun i => sched (time + i)

theorem Steady.since (h : Steady index sched) (time : Nat) : Steady index (since sched time) where
  fair earlier := by
    obtain ⟨later, hlater, hturn⟩ := h.fair (time + earlier)
    refine ⟨later - time, by omega, ?_⟩
    rw [System.since, show time + (later - time) = later by omega, hturn]
  undisturbed i := h.undisturbed (time + i)

theorem after_since (s : System) (sched : Nat → Act) (time more : Nat) :
    s.after (upTo sched (time + more)) =
      (s.after (upTo sched time)).after (upTo (since sched time) more) := by
  rw [upTo_add, after_append]
  rfl

theorem completions_since (s : System) (index : Nat) (sched : Nat → Act) (time more : Nat) :
    s.completions index (upTo sched (time + more)) = s.completions index (upTo sched time) ++
      (s.after (upTo sched time)).completions index (upTo (since sched time) more) := by
  rw [upTo_add, completions_append]
  rfl

theorem pushed_since (sched : Nat → Act) (time more : Nat) :
    pushed (upTo sched (time + more)) =
      pushed (upTo sched time) ++ pushed (upTo (since sched time) more) := by
  rw [upTo_add, pushed_append]
  rfl

/-- The bytes that wait at the start and those that are pushed before a time. -/
def arrived (sched : Nat → Act) (s : System) (time : Nat) : List UInt8 :=
  s.engine.queue.bytes ++ pushed (upTo sched time)

theorem arrived_add (sched : Nat → Act) (s : System) (time more : Nat) :
    s.arrived sched (time + more) =
      s.arrived sched time ++ pushed (upTo (since sched time) more) := by
  rw [arrived, arrived, pushed_since, List.append_assoc]

/-- What arrives is the bytes of this stream. -/
structure Receives (stream : ByteStream) (sched : Nat → Act) (s : System) : Prop where
  some : ∀ time, ∃ k, s.arrived sched time = stream.take k
  all : ∀ k, ∃ time, stream.take k <+: s.arrived sched time

/-- What is there at a time is there later too. -/
theorem Receives.exists_forall (h : s.Receives stream sched) (k : Nat) :
    ∃ time, ∀ more, stream.take k <+: s.arrived sched (time + more) := by
  obtain ⟨time, hall⟩ := h.all k
  refine ⟨time, fun more => ?_⟩
  rw [arrived_add]
  exact hall.trans (List.prefix_append ..)

/-! ## From one step to the next -/

/-- An act leaves a run whose machine is not at its end where it was, with the pushed bytes and nearer
to the next step by an act of its own if it does not lack a byte, or it takes that step. -/
theorem Carries.rests_or_steps (hs : s.Exclusive) (h : s.Carries program index t distance)
    (ha : ¬ a.Disturbs index) (hopen : ∀ r, ¬ Sequential.Ends program t r) :
    (∃ distance', (s.act a).1.Carries program index (t.feed a.pushed) distance' ∧
      s.completion? index a = none ∧
      (t.step program ≠ .starved →
        distance' + (if a = .advance index then 1 else 0) ≤ distance)) ∨
    ∃ u distance', t.step program = .next u ∧ a.pushed = [] ∧
      (s.act a).1.Carries program index u distance' ∧
      s.completion? index a = Sequential.completion? program t u := by
  by_cases hown : a = .advance index
  · subst hown
    have proceeds := h.advance
    generalize s.completion? index (.advance index) = done at proceeds ⊢
    cases proceeds with
    | @rests distance' nearer carries =>
      refine .inl ⟨distance', by simpa using carries, rfl, fun hstarved => ?_⟩
      rw [if_pos rfl]
      exact nearer.resolve_left hstarved
    | @steps u distance' next carries => exact .inr ⟨u, distance', next, rfl, carries, rfl⟩
    | ends ends => exact absurd ends (hopen _)
  · refine .inl ⟨distance, h.act_other hs ha hown, by simp [completion?, hown], fun _ => ?_⟩
    rw [if_neg hown]
    exact Nat.le_refl _

/-- After some acts a run whose machine does not come to its end has not taken its next step yet, or
it took it after fewer acts. -/
theorem Carries.rests_or_stepped (hs : s.Exclusive) (h : s.Carries program index t distance)
    (undisturbed : ∀ time, ¬ (sched time).Disturbs index)
    (hopen : ∀ time r, ¬ Sequential.Ends program (t.feed (pushed (upTo sched time))) r)
    (time : Nat) :
    (∃ distance', (s.after (upTo sched time)).Carries program index
        (t.feed (pushed (upTo sched time))) distance' ∧
      s.completions index (upTo sched time) = [] ∧
      (t.step program ≠ .starved → distance' + turns index sched 0 time ≤ distance)) ∨
    ∃ earlier u distance', (t.feed (pushed (upTo sched earlier))).step program = .next u ∧
      (s.after (upTo sched earlier)).Carries program index u distance' ∧
      s.completions index (upTo sched earlier) =
        (Sequential.completion? program (t.feed (pushed (upTo sched earlier))) u).toList := by
  induction time with
  | zero => exact .inl ⟨distance, by simpa [upTo] using h, rfl, fun _ => Nat.le_refl _⟩
  | succ time ih =>
    rcases ih with ⟨distance', carries, hdone, hnearer⟩ | stepped
    · -- what the act adds to the run so far
      have hafter := s.after_upTo_succ sched time
      have hcompletions : s.completions index (upTo sched (time + 1)) =
          ((s.after (upTo sched time)).completion? index (sched time)).toList := by
        rw [upTo_succ, completions_append, hdone]
        simp [completions]
      have hpushed : pushed (upTo sched (time + 1)) =
          pushed (upTo sched time) ++ (sched time).pushed := by
        rw [upTo_succ, pushed_append]
        simp
      rcases carries.rests_or_steps (hs.after _) (undisturbed time) (hopen time) with
        ⟨distance'', carries', hnone, hnearer'⟩ | ⟨u, distance'', hnext, hquiet, carries', hstep⟩
      · refine .inl ⟨distance'', ?_, ?_, fun hstarved => ?_⟩
        · rw [hafter, hpushed, ← Sequential.feed_feed]
          exact carries'
        · rw [hcompletions, hnone]
          rfl
        · have hle := hnearer hstarved
          have hle' := hnearer' fun hfed =>
            hstarved (Sequential.step_starved_of_feed h.inBounds hfed)
          rw [turns, Nat.zero_add]
          omega
      · refine .inr ⟨time + 1, u, distance'', ?_, ?_, ?_⟩
        · rw [hpushed, hquiet, List.append_nil]
          exact hnext
        · rw [hafter]
          exact carries'
        · rw [hcompletions, hpushed, hquiet, List.append_nil, hstep]
    · exact .inr stepped

/-- A run takes the step that its machine takes when some more bytes have arrived. -/
theorem Carries.steps (hs : s.Exclusive) (h : s.Carries program index t distance)
    (hsched : Steady index sched)
    (hnext : ∃ time u, (t.feed (pushed (upTo sched time))).step program = .next u) :
    ∃ time u distance', (t.feed (pushed (upTo sched time))).step program = .next u ∧
      (s.after (upTo sched time)).Carries program index u distance' ∧
      s.completions index (upTo sched time) =
        (Sequential.completion? program (t.feed (pushed (upTo sched time))) u).toList := by
  have hbounds := h.inBounds
  obtain ⟨time, u, hnext⟩ := hnext
  -- the step stays the next one, whatever else arrives
  have hlater : ∀ more, ∃ u', (t.feed (pushed (upTo sched (time + more)))).step program =
      .next u' := by
    intro more
    rw [pushed_since, ← Sequential.feed_feed]
    exact ⟨_, Sequential.step_feed_next _ hbounds hnext⟩
  have hopen : ∀ earlier r,
      ¬ Sequential.Ends program (t.feed (pushed (upTo sched earlier))) r := by
    intro earlier r ends
    obtain ⟨u', hu'⟩ := hlater earlier
    rw [Nat.add_comm, pushed_since, ← Sequential.feed_feed] at hu'
    exact (ends.feed hbounds _).stuck u' hu'
  rcases h.rests_or_stepped hs hsched.undisturbed hopen time with
    ⟨distance', carries, hdone, -⟩ | stepped
  · -- all that the step needs is there, so the run's own acts bring it nearer
    have hsched' := hsched.since time
    have hfeed : ∀ more, (t.feed (pushed (upTo sched time))).feed
        (pushed (upTo (since sched time) more)) = t.feed (pushed (upTo sched (time + more))) := by
      intro more
      rw [Sequential.feed_feed, pushed_since]
    have hopen' : ∀ more r, ¬ Sequential.Ends program
        ((t.feed (pushed (upTo sched time))).feed (pushed (upTo (since sched time) more))) r := by
      intro more
      rw [hfeed]
      exact hopen (time + more)
    have hstarved : (t.feed (pushed (upTo sched time))).step program ≠ .starved := by
      rw [hnext]
      nofun
    obtain ⟨acts, hacts⟩ := exists_turns hsched'.fair 0 distance'
    rcases carries.rests_or_stepped (hs.after _) hsched'.undisturbed hopen' acts with
      ⟨distance'', carries', -, hnearer⟩ | ⟨more, u', distance'', hnext', carries', hdone'⟩
    · have hpos := carries'.distance_pos
      have hle := hnearer hstarved
      omega
    · rw [hfeed] at hnext' hdone'
      refine ⟨time + more, u', distance'', hnext', ?_, ?_⟩
      · rw [after_since]
        exact carries'
      · rw [completions_since, hdone, hdone']
        rfl
  · exact stepped

/-- A run that has come to its end with a result returns it, and keeps it. -/
theorem Carries.eventually_returns (hs : s.Exclusive) (hsched : Steady index sched)
    (h : (s.after (upTo sched time)).Carries program index t distance)
    (hends : Sequential.Ends program t r) : Eventually sched s (·.result? index = some r) := by
  obtain ⟨enough, hacts⟩ := exists_turns hsched.fair time (distance + 2)
  refine ⟨time + enough, fun later hlater => ?_⟩
  obtain ⟨acts, rfl⟩ := Nat.exists_eq_add_of_le (Nat.le_trans (Nat.le_add_right ..) hlater)
  have hmono := turns_mono index sched time (Nat.le_of_add_le_add_left hlater)
  have hending : (s.after (upTo sched time)).Ending program index r (distance + 2) :=
    .inl ⟨t, distance, h, hends, Nat.le_refl _⟩
  have hafter := hending.after (hs.after _)
    (not_disturbs_upTo (hsched.since time).undisturbed acts)
  have hcount : (upTo (since sched time) acts).count (.advance index) =
      turns index sched time acts := (turns_eq_count index sched time acts).symm
  rw [hcount, Nat.sub_eq_zero_of_le (Nat.le_trans hacts hmono)] at hafter
  rw [after_since]
  exact hafter.result?_eq

/-! ## From the machine to the run -/

/-- At this time the machine of call number `index` has taken so many steps, of those that it takes
from `m` on with all that has arrived, and the call has completed the operators on the way. -/
def Reached (program : Program) (index : Nat) (m : Machine) (sched : Nat → Act) (s : System)
    (steps time : Nat) : Prop :=
  ∃ t distance, Sequential.Path program steps ⟨m, s.arrived sched time⟩
      (s.completions index (upTo sched time)) t ∧
    (s.after (upTo sched time)).Carries program index t distance

/-- On this schedule call number `index` is left to carry out the program, from the machine `m` on
and with this input. -/
structure Pursues (program : Program) (index : Nat) (m : Machine) (stream : ByteStream)
    (sched : Nat → Act) (s : System) : Prop where
  exclusive : s.Exclusive
  inBounds : m.tape.InBounds
  steady : Steady index sched
  receives : s.Receives stream sched
  starts : ∃ time, s.Reached program index m sched 0 time

namespace Pursues

variable {n k : Nat} {done : List Completion}

/-- With what has arrived in the end the machine takes every step that it takes on a beginning of
the stream. -/
theorem exists_path (h : s.Pursues program index m stream sched)
    (path : Sequential.Path program n ⟨m, stream.take k⟩ done t) (time : Nat) :
    ∃ more all u, Sequential.Path program n ⟨m, s.arrived sched (time + more)⟩ all u := by
  obtain ⟨enough, hall⟩ := h.receives.exists_forall k
  obtain ⟨rest, hrest⟩ := hall time
  have hpath := path.feed rest h.inBounds
  rw [Sequential.feed, hrest, Nat.add_comm] at hpath
  exact ⟨enough, _, _, hpath⟩

/-- A path with what has arrived is one with what arrives later. -/
theorem fed (h : s.Pursues program index m stream sched)
    (path : Sequential.Path program n ⟨m, s.arrived sched time⟩ done t) (more : Nat) :
    Sequential.Path program n ⟨m, s.arrived sched (time + more)⟩ done
      (t.feed (pushed (upTo (since sched time) more))) := by
  rw [arrived_add]
  exact path.feed _ h.inBounds

theorem next (h : s.Pursues program index m stream sched)
    (hreached : s.Reached program index m sched n time)
    (path : Sequential.Path program (n + 1) ⟨m, stream.take k⟩ done u) :
    ∃ later, s.Reached program index m sched (n + 1) later := by
  obtain ⟨t, distance, here, carries⟩ := hreached
  obtain ⟨more, all, u, longer⟩ := h.exists_path path time
  obtain ⟨later, -, hlater⟩ := (h.fed here more).split longer (Nat.le_succ n)
  rw [Nat.add_sub_cancel_left] at hlater
  cases hlater with
  | cons first _ =>
    obtain ⟨more', u', distance', hnext, carries', hdone⟩ :=
      carries.steps (h.exclusive.after _) (h.steady.since time) ⟨more, _, first⟩
    refine ⟨time + more', u', distance', ?_, ?_⟩
    · rw [completions_since, hdone]
      exact (h.fed here more').snoc hnext
    · rw [after_since]
      exact carries'

/-- The run takes every step that its machine takes on a beginning of the stream. -/
theorem reached (h : s.Pursues program index m stream sched)
    (path : Sequential.Path program n ⟨m, stream.take k⟩ done t) :
    ∃ time, s.Reached program index m sched n time := by
  induction n generalizing done t with
  | zero => exact h.starts
  | succ n ih =>
    obtain ⟨done', t', shorter⟩ := path.shorten (Nat.le_succ n)
    obtain ⟨time, hreached⟩ := ih shorter
    exact h.next hreached path

/-- Where the run is after so many steps, but for the input, does not depend on how much of the
stream has arrived. -/
theorem machine_eq (h : s.Pursues program index m stream sched)
    (path : Sequential.Path program n ⟨m, stream.take k⟩ done t) {all : List Completion}
    (path' : Sequential.Path program n ⟨m, s.arrived sched time⟩ all u) :
    u.machine = t.machine ∧ all = done := by
  obtain ⟨k', harrived⟩ := h.receives.some time
  rw [harrived] at path'
  obtain ⟨_, more, more', hpath, hpath'⟩ := path.meet h.inBounds path'
  obtain ⟨hdone, hfed⟩ := hpath.unique hpath'
  have hmachine : (u.feed more').machine = (t.feed more).machine :=
    congrArg Sequential.machine hfed
  exact ⟨hmachine, hdone⟩

/-- When the stream has an end, all of it is there from some time on. -/
theorem complete (h : s.Pursues program index m stream sched) (hend : stream.byte? k = none) :
    ∃ time, ∀ later, time ≤ later → s.arrived sched later = stream.take k := by
  obtain ⟨time, hall⟩ := h.receives.exists_forall k
  refine ⟨time, fun later hlater => ?_⟩
  obtain ⟨more, rfl⟩ := Nat.exists_eq_add_of_le hlater
  have hle := hall more
  obtain ⟨k', harrived⟩ := h.receives.some (time + more)
  have hge : s.arrived sched (time + more) <+: stream.take k := by
    have hmax := stream.take_prefix (Nat.le_max_right k k')
    rwa [ByteStream.take_of_le hend (Nat.le_max_left k k'), ← harrived] at hmax
  exact hge.eq_of_length_le hle.length_le

/-- A run whose machine lacks a byte behind the end of the stream waits for it. -/
theorem waits (h : s.Pursues program index m stream sched)
    (path : Sequential.Path program n ⟨m, stream.take k⟩ done t)
    (hstarved : t.step program = .starved) (hend : stream.byte? k = none) :
    Eventually sched s (WaitsAt index t.machine.ip) := by
  have hbounds := path.inBounds h.inBounds
  obtain ⟨time, t', distance, here, carries⟩ := h.reached path
  obtain ⟨enough, hall⟩ := h.complete hend
  refine ⟨time + enough, fun later hlater => ?_⟩
  obtain ⟨more, rfl⟩ := Nat.exists_eq_add_of_le (Nat.le_trans (Nat.le_add_right ..) hlater)
  have hopen : ∀ more r, ¬ Sequential.Ends program
      (t'.feed (pushed (upTo (since sched time) more))) r := by
    intro more r ends
    have hpath := h.fed here more
    have hmachine := (h.machine_eq path hpath).1
    exact (ends.of_machine (hpath.inBounds h.inBounds) hmachine.symm).step_ne_starved hstarved
  rcases carries.rests_or_stepped (h.exclusive.after _) (h.steady.since time).undisturbed hopen
    more with ⟨distance', carries', -⟩ | ⟨more', u, distance', hnext, -⟩
  · -- the run still stands where the machine with the whole input does
    rw [← after_since] at carries'
    have hpath := h.fed here more
    rw [hall (time + more) (by omega)] at hpath
    rw [(path.unique hpath).2] at carries'
    obtain ⟨c, w, hc, hstage, rfl, -, rfl, -⟩ := carries'.call
    cases Sequential.does_of_step_eq hstarved hbounds with
    | starved hop hinput =>
      exact ⟨w, by rw [stage?_of_call hc, hstage], rfl, hop, hinput⟩
  · -- no further step is there, whatever has arrived
    obtain ⟨k', harrived⟩ := h.receives.some (time + more')
    have longer := (h.fed here more').snoc hnext
    rw [harrived] at longer
    obtain ⟨_, -, longer⟩ := longer.take h.inBounds (Nat.le_max_right k k')
    rw [ByteStream.take_of_le hend (Nat.le_max_left k k')] at longer
    have hle := path.le_of_stuck (Sequential.stuck_of_starved hstarved) longer
    omega

/-- The run meets what its machine meets. -/
theorem meets (h : s.Pursues program index m stream sched) (hm : m.Meets program stream f) :
    s.Meets index sched f := by
  cases hm with
  | halts path halts all =>
    cases halts with
    | ends ends =>
      obtain ⟨time, t', distance, here, carries⟩ := h.reached path
      have hmachine := (h.machine_eq path here).1
      exact .returns (carries.eventually_returns h.exclusive h.steady
        (ends.of_machine (path.inBounds h.inBounds) hmachine))
    | starves starved => exact .waits (h.waits path starved (all starved))
  | endless endless =>
    refine .endless fun k => ?_
    obtain ⟨k', done, t, path⟩ := endless (k * (program.size + 1))
    obtain ⟨time, t', distance, here, -⟩ := h.reached path
    exact ⟨time, here.le_length h.inBounds (Nat.le_refl _)⟩

theorem destined (h : s.Pursues program index m stream sched) (hm : m.Meets program stream f) :
    s.Destined index sched f :=
  (h.meets hm).destined

/-- A run whose machine ends with a result returns it. -/
theorem destined_of_ends (h : s.Pursues program index m stream sched)
    (path : Sequential.Path program n ⟨m, stream.take k⟩ done t)
    (ends : Sequential.Ends program t r) : s.Destined index sched (.returns r) :=
  h.destined (.halts path (.ends ends) fun hstarved => absurd hstarved ends.step_ne_starved)

/-- The run comes to every machine that its machine becomes, with the operators completed that lie
before it. -/
theorem exists_machine (h : s.Pursues program index m stream sched)
    (path : Sequential.Path program n ⟨m, stream.take k⟩ done t) :
    ∃ time, (s.after (upTo sched time)).machine? index = some t.machine ∧
      s.completions index (upTo sched time) = done := by
  obtain ⟨time, t', distance, here, carries⟩ := h.reached path
  obtain ⟨hmachine, hdone⟩ := h.machine_eq path here
  exact ⟨time, by rw [carries.machine?_eq, hmachine], hdone⟩

end Pursues

end System

end Brainfuck
