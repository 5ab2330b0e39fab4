import Brainfuck.Proofs.Agreement
import Brainfuck.Proofs.Runs

/-!
# Invocations whose threads all go on

An endless sequence of moves on which the worker and the main thread move again and again and nobody
stops the run (`Process.GoesOn`), and with which all input is passed on in the end
(`Process.PassesOn`). Its acts are a schedule of the engine on which the run of the program is left
alone, so if its machine ends on this input the run does, and if there is no room for the cells it
breaks off. Then the main thread finds the result and says how the run has ended
(`Process.Started.eventually_over`).
-/

namespace Brainfuck

namespace System

variable {index : Nat} {sched : Nat → Act} {s : System} {a : Act}

/-- A schedule that begins with an act. -/
def precede (a : Act) (sched : Nat → Act) : Nat → Act
  | 0 => a
  | time + 1 => sched time

theorem upTo_precede (a : Act) (sched : Nat → Act) (time : Nat) :
    upTo (precede a sched) (time + 1) = a :: upTo sched time := by
  rw [upTo, List.range_succ_eq_map, List.map_cons, List.map_map]
  rfl

theorem Steady.precede (h : Steady index sched) (ha : ¬ a.Disturbs index) :
    Steady index (precede a sched) where
  fair time := by
    obtain ⟨later, hlater, hturn⟩ := h.fair time
    exact ⟨later + 1, Nat.le_succ_of_le hlater, hturn⟩
  undisturbed time := by
    cases time with
    | zero => exact ha
    | succ time => exact h.undisturbed time

/-- A call that is on its way back goes on without a look at the memory. -/
theorem nextAct_of_closing {r : Result} {flags : Nat}
    (h : s.stage? index = some (.closing r flags)) : s.nextAct index = .advance index := by
  obtain ⟨c, hc, hstage⟩ := exists_call_of_stage? h
  have hroom : s.lacksRoom index = false := by
    rw [lacksRoom, hc, Option.any_some, Call.lacksRoom, hstage]
    obtain _ | _ | _ := flags <;> rfl
  rw [nextAct, hroom]
  rfl

end System

namespace CommandLine.Process

variable {p : Process} {turns : Nat → Move} {input : List UInt8} {moves xs : List Move}
  {time later : Nat} {r : Result}

/-! ## Moves without an end -/

/-- The moves before a time. -/
def movesUpTo (turns : Nat → Move) (time : Nat) : List Move :=
  (List.range time).map turns

theorem movesUpTo_succ (turns : Nat → Move) (time : Nat) :
    movesUpTo turns (time + 1) = movesUpTo turns time ++ [turns time] := by
  rw [movesUpTo, List.range_succ, List.map_append]
  rfl

theorem movesUpTo_isPrefix (turns : Nat → Move) (h : time ≤ later) :
    movesUpTo turns time <+: movesUpTo turns later := by
  obtain ⟨more, rfl⟩ := Nat.exists_eq_add_of_le h
  rw [movesUpTo, movesUpTo, List.range_add, List.map_append]
  exact List.prefix_append ..

/-- The worker and the main thread move again and again, and nobody stops the run. -/
structure GoesOn (p : Process) (turns : Nat → Move) : Prop where
  works : ∀ time, ∃ later, time ≤ later ∧ turns later = .work
  joins : ∀ time, ∃ later, time ≤ later ∧ turns later = .join
  concludes : ∀ time, ∃ later, time ≤ later ∧ turns later = .conclude
  unstopped : ∀ time, p.Unstopped (movesUpTo turns time)

/-- Some of the input is passed on at any time, and all of it in the end. -/
structure PassesOn (input : List UInt8) (turns : Nat → Move) : Prop where
  some : ∀ time, (movesUpTo turns time).flatMap Move.passed <+: input
  all : ∃ time, (movesUpTo turns time).flatMap Move.passed = input

/-- The acts of the engine that the moves are; where a move is none, nothing is pushed. -/
def schedule (p : Process) (turns : Nat → Move) : Nat → Act :=
  fun time => ((p.run (movesUpTo turns time)).1.act? (turns time)).getD (.push [])

theorem after_schedule (p : Process) (turns : Nat → Move) (time : Nat) :
    p.system.after (System.upTo (p.schedule turns) time) =
      (p.run (movesUpTo turns time)).1.system := by
  induction time with
  | zero => rfl
  | succ time ih =>
    rw [System.after_upTo_succ, ih, movesUpTo_succ, run_snoc, system_step, schedule]
    cases (p.run (movesUpTo turns time)).1.act? (turns time) with
    | some a => rfl
    | none =>
      -- to push nothing changes nothing
      generalize (p.run (movesUpTo turns time)).1.system = s
      obtain ⟨⟨memory, queue, running, busy⟩, calls⟩ := s
      simp [System.act, Engine.push, ByteQueue.push]

theorem pushed_schedule (p : Process) (turns : Nat → Move) (time : Nat) :
    pushed (System.upTo (p.schedule turns) time) = (movesUpTo turns time).flatMap Move.passed := by
  induction time with
  | zero => rfl
  | succ time ih =>
    have hlast := pushed_acts p (movesUpTo turns time ++ [turns time])
    rw [acts_append, pushed_append, pushed_acts] at hlast
    rw [System.upTo_succ, pushed_append, ih, movesUpTo_succ, ← hlast, schedule]
    cases hact : (p.run (movesUpTo turns time)).1.act? (turns time) <;>
      simp [acts, hact, Act.pushed]

/-! ## With room for the cells -/

theorem GoesOn.steady (h : p.Started) (hroom : p.settings.memorySize ≤ Tape.mostCells)
    (hgoes : p.GoesOn turns) : System.Steady 0 (p.schedule turns) where
  fair time := by
    obtain ⟨later, hlater, hturn⟩ := hgoes.works time
    exact ⟨later, hlater, by rw [schedule, hturn, act?, Option.getD_some, h.nextAct_run hroom]⟩
  undisturbed time := by
    have hall := (hgoes.unstopped (time + 1)).not_disturbs h hroom
    rw [movesUpTo_succ, acts_append] at hall
    rw [schedule]
    cases hact : (p.run (movesUpTo turns time)).1.act? (turns time) with
    | some a => exact hall a (List.mem_append_right _ (by simp [acts, hact]))
    | none => exact Act.not_disturbs (i := 0) (.inr ⟨[], rfl⟩)

/-- The moves leave the run alone, and their input is all that it receives. -/
theorem GoesOn.exists_runs (h : p.Started) (hroom : p.settings.memorySize ≤ Tape.mostCells)
    (hgoes : p.GoesOn turns) (hpasses : PassesOn input turns) :
    ∃ s : System, p.system = s.after [.advance 0] ∧
      s.Runs p.settings.memorySize (.ofString p.source) 0 (.ofList input)
        (System.precede (.advance 0) (p.schedule turns)) := by
  obtain ⟨s, begun, hsystem⟩ := h.exists_begun
  refine ⟨s, hsystem, begun, (hgoes.steady h hroom).precede (Act.not_disturbs (.inl rfl)), ?_⟩
  have harrived : ∀ time, s.arrived (System.precede (.advance 0) (p.schedule turns)) (time + 1) =
      (movesUpTo turns time).flatMap Move.passed := by
    intro time
    rw [System.arrived, begun.queue_eq, System.upTo_precede, pushed_cons, pushed_schedule]
    rfl
  constructor
  · intro time
    cases time with
    | zero => exact ⟨0, by rw [System.arrived, begun.queue_eq]; rfl⟩
    | succ time =>
      refine ⟨((movesUpTo turns time).flatMap Move.passed).length, ?_⟩
      rw [harrived, ByteStream.take_ofList]
      exact List.prefix_iff_eq_take.mp (hpasses.some time)
  · intro k
    obtain ⟨time, hall⟩ := hpasses.all
    refine ⟨time + 1, ?_⟩
    rw [harrived, hall, ByteStream.take_ofList]
    exact List.take_prefix k input

/-- If some moves lead to a result on the same input, the run returns it. -/
theorem GoesOn.eventually_result (h : p.Started) (hroom : p.settings.memorySize ≤ Tape.mostCells)
    (hgoes : p.GoesOn turns) (hpasses : PassesOn input turns) (hxs : p.Unstopped xs)
    (hinput : xs.flatMap Move.passed <+: input)
    (hr : (p.run xs).1.system.result? 0 = some r) :
    ∃ time, (p.run (movesUpTo turns time)).1.system.result? 0 = some r := by
  obtain ⟨origin, hstart, hpath⟩ := h.onPath
  have hafter := hpath.after (p.acts xs)
  have hu := hpath.undisturbed_after h.undisturbed (hxs.not_disturbs h hroom)
  rw [List.nil_append, List.nil_append, ← system_run, pushed_acts] at hafter
  rw [← system_run] at hu
  -- the machine ends on what has been passed on, and so on all of the input
  obtain ⟨n, t, path, ends⟩ := hafter.ends_of_closing hu (hafter.stage_of_result hr)
  obtain ⟨more, rfl⟩ := hinput
  have hbounds : origin.tape.InBounds := Machine.start_inBounds hstart
  have path' := path.feed more hbounds
  rw [Sequential.feed, ← List.take_length (l := xs.flatMap Move.passed ++ more),
    ← ByteStream.take_ofList] at path'
  have ends' := ends.feed (path.inBounds hbounds) more
  obtain ⟨s, hsystem, hruns⟩ := hgoes.exists_runs h hroom hpasses
  have destined := (hruns.pursues hstart).destined_of_ends path' ends'
  cases (destined _).mpr rfl with
  | returns result =>
    obtain ⟨time, hresult⟩ := result
    have hfinal := hresult (time + 1) (Nat.le_succ time)
    rw [System.upTo_precede, ← List.singleton_append, System.after_append, ← hsystem,
      after_schedule] at hfinal
    exact ⟨time, hfinal⟩

/-! ## Without room for the cells -/

/-- The run breaks off, and returns that. -/
theorem GoesOn.eventually_crashes (h : p.Started) (hroom : Tape.mostCells < p.settings.memorySize)
    (hgoes : p.GoesOn turns) :
    ∃ time, (p.run (movesUpTo turns time)).1.system.result? 0 = some .crashed := by
  -- after its first piece of work the call is on its way back
  obtain ⟨first, -, hfirst⟩ := hgoes.works 0
  obtain ⟨hbreaks, -⟩ := h.breaks_off hroom (hgoes.unstopped first)
  obtain ⟨origin, -, hpath⟩ := h.onPath_run (movesUpTo turns first)
  obtain ⟨flags, hflags, hclosing⟩ := hbreaks.breaks hpath.exclusive (h.memory_run _ ▸ hroom)
  have hwork : (p.run (movesUpTo turns (first + 1))).1.system =
      ((p.run (movesUpTo turns first)).1.system.act
        ((p.run (movesUpTo turns first)).1.system.nextAct 0)).1 := by
    rw [movesUpTo_succ, run_snoc, system_step, hfirst]
    rfl
  rw [← hwork, ← after_schedule] at hclosing
  have hexclusive : (p.system.after (System.upTo (p.schedule turns) (first + 1))).Exclusive := by
    rw [after_schedule, hwork]
    exact hpath.exclusive.after [_]
  -- from then on each piece of work is one step further
  have hback : ∀ more,
      (p.system.after (System.upTo (p.schedule turns) (first + 1 + more))).stage? 0 =
        some (.closing .crashed
          (flags - System.turns 0 (p.schedule turns) (first + 1) more)) := by
    intro more
    rw [System.turns_eq_count, System.after_since]
    exact System.closing_after hexclusive hflags hclosing _
  have fair : ∀ time, ∃ later, time ≤ later ∧ p.schedule turns later = .advance 0 := by
    intro time
    obtain ⟨later, hlater, hturn⟩ := hgoes.works (max time (first + 1))
    obtain ⟨more, rfl⟩ :=
      Nat.exists_eq_add_of_le (Nat.le_trans (Nat.le_max_right time (first + 1)) hlater)
    refine ⟨_, Nat.le_trans (Nat.le_max_left ..) hlater, ?_⟩
    have hstage := hback more
    rw [after_schedule] at hstage
    rw [schedule, hturn, act?, Option.getD_some, System.nextAct_of_closing hstage]
  obtain ⟨more, hmore⟩ := System.exists_turns fair (first + 1) 2
  have hstage := hback more
  rw [Nat.sub_eq_zero_of_le (Nat.le_trans hflags hmore), after_schedule] at hstage
  refine ⟨first + 1 + more, ?_⟩
  rw [System.result?_eq, hstage]
  rfl

/-! ## The main thread -/

/-- Once the main thread does not wait any more it never will. -/
theorem not_waiting_run (h : p.stage ≠ .waiting) (moves : List Move) :
    (p.run moves).1.stage ≠ .waiting := by
  induction moves generalizing p with
  | nil => exact h
  | cons m moves ih =>
    refine ih (p := (p.step m).1) ?_
    have hsteps := p.steps m
    generalize (p.step m).1 = p' at hsteps
    generalize (p.step m).2 = written at hsteps
    cases hsteps with
    | acts | notes | expires | rests => exact h
    | joins | concludes => nofun

theorem not_waiting_of_join (hr : p.system.result? 0 = some r) :
    (p.step .join).1.stage ≠ .waiting := by
  cases hstage : p.stage <;> simp [step, hstage, hr]

theorem over_of_conclude (h : p.stage ≠ .waiting) :
    ∃ exit, (p.step .conclude).1.stage = .over exit := by
  cases hstage : p.stage with
  | waiting => exact absurd hstage h
  | joined r => exact ⟨(p.verdict r).1, by simp [step, hstage]⟩
  | _ =>
    rename_i exit
    exact ⟨exit, by simp [step, hstage]⟩

/-- Once there is a result the main thread ends the invocation. -/
theorem GoesOn.eventually_over (h : p.Started) (hgoes : p.GoesOn turns)
    (hr : (p.run (movesUpTo turns time)).1.system.result? 0 = some r) :
    ∃ later exit, (p.run (movesUpTo turns later)).1.stage = .over exit := by
  obtain ⟨joining, hjoining, hjoin⟩ := hgoes.joins time
  obtain ⟨more, hmore⟩ := movesUpTo_isPrefix turns hjoining
  have hresult := h.result_stays hr more
  rw [hmore] at hresult
  have hjoined : (p.run (movesUpTo turns (joining + 1))).1.stage ≠ .waiting := by
    rw [movesUpTo_succ, run_snoc, hjoin]
    exact not_waiting_of_join hresult
  obtain ⟨concluding, hconcluding, hconclude⟩ := hgoes.concludes (joining + 1)
  obtain ⟨rest, hrest⟩ := movesUpTo_isPrefix turns hconcluding
  have hstill := not_waiting_run hjoined rest
  obtain ⟨exit, hover⟩ := over_of_conclude hstill
  refine ⟨concluding + 1, exit, ?_⟩
  rw [movesUpTo_succ, run_snoc, hconclude, ← hrest, run_append]
  exact hover

/-- If some moves end the invocation without a stop, then so do these, whatever their order and
however the input is cut. -/
theorem Started.eventually_over (h : p.Started) (hgoes : p.GoesOn turns)
    (hpasses : PassesOn input turns) (hxs : p.Unstopped xs)
    (hinput : xs.flatMap Move.passed <+: input) {exit : Nat}
    (hover : (p.run xs).1.stage = .over exit) :
    ∃ time exit', (p.run (movesUpTo turns time)).1.stage = .over exit' := by
  obtain ⟨r, hr, -⟩ := h.leaves_behind hover
  rcases Nat.lt_or_ge Tape.mostCells p.settings.memorySize with hroom | hroom
  · obtain ⟨time, hcrashed⟩ := hgoes.eventually_crashes h hroom
    exact hgoes.eventually_over h hcrashed
  · obtain ⟨time, hsame⟩ := hgoes.eventually_result h hroom hpasses hxs hinput hr
    exact hgoes.eventually_over h hsame

end CommandLine.Process

end Brainfuck
