import Brainfuck.CommandLine.Simulation
import Brainfuck.Proofs.Moves

/-!
# Threads that take turns

An invocation under a fixed schedule is one whose threads take turns by a rule, and the rule only
picks the moves: `Simulation.Follows` says that a simulation has come from a process by moves, and
that what it has gathered as standard output is what these have written. Everything that a simulation
does is such a move or several of them, or leaves the process and standard output alone. Silent work
that is done at once is as many moves of the worker (`Process.run_stretch`).
-/

namespace Brainfuck.CommandLine

/-! ## Silent work -/

theorem setIfInBounds_self {calls : Array Call} {index : Nat} {c : Call}
    (h : calls[index]? = some c) : calls.setIfInBounds index c = calls := by
  obtain ⟨hlt, rfl⟩ := Array.getElem?_eq_some_iff.mp h
  rw [Array.setIfInBounds, dif_pos hlt, Array.set_getElem_self]

theorem stretch_of_call {s : System} {index : Nat} {c : Call} (h : s.calls[index]? = some c)
    (most : Nat) : s.stretch index most =
      ((c.stretch s.engine.running most).1,
        ⟨s.engine, s.calls.setIfInBounds index (c.stretch s.engine.running most).2⟩) := by
  obtain ⟨hlt, rfl⟩ := Array.getElem?_eq_some_iff.mp h
  simp [System.stretch, System.takeOut, hlt, Array.setIfInBounds]

theorem stretch_absent {s : System} {index : Nat} (h : s.calls[index]? = none) (most : Nat) :
    s.stretch index most = (0, s) := by
  have hle : ¬ index < s.calls.size := Nat.not_lt.mpr (Array.getElem?_eq_none_iff.mp h)
  simp [System.stretch, hle]

/-- A call whose worker does its work silently leaves the engine as it is. -/
theorem advance_silently {e : Engine} {manner : Manner} {program : Program} {w w' : Worker}
    {events : List Event} (hrunning : e.running = true)
    (h : w.advance true e.queue = ⟨.working w', e.queue, events⟩) :
    Call.advance e ⟨manner, program, .active w⟩ = ⟨⟨manner, program, .active w'⟩, e, events⟩ := by
  obtain ⟨memory, queue, running, busy⟩ := e
  subst hrunning
  simp only [Call.advance, h]

namespace Process

/-- Silent pieces of work of the run are moves that write nothing to standard output. -/
theorem run_silently {manner : Manner} {program : Program} {queue : ByteQueue} {pieces : Nat}
    {w w' : Worker} (h : Worker.Silently queue pieces w w') {p : Process}
    (hc : p.system.calls[0]? = some ⟨manner, program, .active w⟩)
    (hrunning : p.system.engine.running = true) (hqueue : p.system.engine.queue = queue) :
    (p.run (List.replicate pieces .work)).1 =
        { p with system := ⟨p.system.engine,
            p.system.calls.setIfInBounds 0 ⟨manner, program, .active w'⟩⟩ } ∧
      stdoutOf (p.run (List.replicate pieces .work)).2 = [] := by
  induction h generalizing p with
  | nil =>
    rw [setIfInBounds_self hc]
    exact ⟨rfl, rfl⟩
  | @cons pieces w w₁ w' events first quiet later ih =>
    have hlt := (Array.getElem?_eq_some_iff.mp hc).1
    have hact : p.system.nextAct 0 = .advance 0 := by
      simp [System.nextAct, System.lacksRoom, hc, Call.lacksRoom]
    have hstep : p.step .work = p.engineAct (p.system.nextAct 0) := rfl
    subst hqueue
    rw [hact, engineAct_eq, System.act_advance_eq hc, advance_silently hrunning first] at hstep
    have hsilent : stdoutOf (events.flatMap emissions) = [] := by
      rw [stdoutOf_emissions, List.filterMap_eq_nil_iff]
      intro event hevent
      have hquiet := List.all_eq_true.mp quiet event hevent
      cases event with
      | printed => cases hquiet
      | _ => rfl
    obtain ⟨hprocess, hstdout⟩ := @ih (p.step .work).1 (by simp [hstep, hlt])
      (by rw [hstep]; exact hrunning) (by rw [hstep])
    rw [hstep] at hprocess hstdout
    rw [List.replicate_succ, run, hstep]
    refine ⟨hprocess.trans (by simp), ?_⟩
    rw [stdoutOf_append, hsilent]
    exact hstdout

/-- Silent work that is done at once is as many moves, which write nothing to standard output. -/
theorem run_stretch (p : Process) (most : Nat) :
    (p.run (List.replicate (p.stretch most).1 .work)).1 = (p.stretch most).2 ∧
      stdoutOf (p.run (List.replicate (p.stretch most).1 .work)).2 = [] := by
  have hstretch : p.stretch most =
      ((p.system.stretch 0 most).1, { p with system := (p.system.stretch 0 most).2 }) := by
    obtain ⟨name, terminal, source, settings, system, timedOut, stage⟩ := p
    rfl
  rw [hstretch]
  cases hc : p.system.calls[0]? with
  | none =>
    rw [stretch_absent hc]
    exact ⟨rfl, rfl⟩
  | some c =>
    have rest : c.stretch p.system.engine.running most = (0, c) →
        (p.run (List.replicate (p.system.stretch 0 most).1 .work)).1 =
            { p with system := (p.system.stretch 0 most).2 } ∧
          stdoutOf (p.run (List.replicate (p.system.stretch 0 most).1 .work)).2 = [] := by
      intro hrest
      rw [stretch_of_call hc, hrest, setIfInBounds_self hc]
      exact ⟨rfl, rfl⟩
    obtain ⟨manner, program, stage⟩ := c
    cases stage with
    | active w =>
      obtain ⟨program', machine, stalled, phase⟩ := w
      cases hrunning : p.system.engine.running with
      | false => exact rest (by rw [hrunning]; rfl)
      | true =>
        cases phase with
        | ready =>
          have silently := Worker.silently_stretch program' stalled p.system.engine.queue most machine
          rw [stretch_of_call hc, hrunning]
          exact run_silently silently hc hrunning rfl
        | fetching | announcing | awaiting | printing =>
          refine rest ?_
          rw [hrunning]
          simp [Call.stretch, Worker.stretch]
    | _ => exact rest rfl

end Process

/-! ## Simulations -/

namespace Simulation

/-- The simulation has come from the process by moves, and its standard output is what these have
written. -/
def Follows (p : Process) (s : Simulation) : Prop :=
  ∃ moves, (p.run moves).1 = s.process ∧ s.stdout.toList = stdoutOf (p.run moves).2

variable {p : Process} {s s' : Simulation}

theorem emit_all (written : List Emission) (s : Simulation) :
    (written.foldl emit s).process = s.process ∧
      (written.foldl emit s).stdout.toList = s.stdout.toList ++ stdoutOf written := by
  induction written generalizing s with
  | nil => exact ⟨rfl, (List.append_nil _).symm⟩
  | cons e written ih =>
    obtain ⟨hprocess, hstdout⟩ := ih (s.emit e)
    have hfirst : (s.emit e).process = s.process ∧
        (s.emit e).stdout.toList = s.stdout.toList ++ stdoutOf [e] := by
      cases e with
      | stdout value => exact ⟨rfl, Array.toList_push⟩
      | stderr text => exact ⟨rfl, (List.append_nil _).symm⟩
      | log record =>
        simp only [emit]
        split <;> exact ⟨rfl, (List.append_nil _).symm⟩
    rw [List.foldl_cons, hprocess, hstdout, hfirst.1, hfirst.2, List.append_assoc, ← stdoutOf_append]
    exact ⟨rfl, rfl⟩

/-- What does not change the process or standard output. -/
theorem Follows.of_eq (h : s.Follows p) (hprocess : s'.process = s.process)
    (hstdout : s'.stdout = s.stdout) : s'.Follows p := by
  obtain ⟨moves, hmoves, hout⟩ := h
  exact ⟨moves, hmoves.trans hprocess.symm, hstdout ▸ hout⟩

/-- What does moves that write nothing to standard output. -/
theorem Follows.run (h : s.Follows p) (moves : List Move)
    (hprocess : (s.process.run moves).1 = s'.process)
    (hstdout : s'.stdout.toList = s.stdout.toList ++ stdoutOf (s.process.run moves).2) :
    s'.Follows p := by
  obtain ⟨before, hbefore, hout⟩ := h
  refine ⟨before ++ moves, ?_, ?_⟩
  · rw [Process.run_append, hbefore]
    exact hprocess
  · rw [Process.run_append, hbefore, stdoutOf_append, ← hout]
    exact hstdout

theorem Follows.move (h : s.Follows p) (m : Move) : (s.move m).Follows p := by
  obtain ⟨hprocess, hstdout⟩ :=
    emit_all (s.process.step m).2 { s with process := (s.process.step m).1 }
  have hmove : s.move m =
      (s.process.step m).2.foldl emit { s with process := (s.process.step m).1 } := by
    obtain ⟨process, filter, stamp, stdout, stderr, stdin, interruptAfter, clock⟩ := s
    rfl
  refine h.run [m] ?_ ?_
  · rw [hmove, hprocess]
    rfl
  · rw [hmove, hstdout]
    simp [Process.run]

theorem Follows.forward (h : s.Follows p) (f : Forward) : (s.forward f).Follows p := by
  match f with
  | .push bytes => exact h.move _
  | .again => exact h
  | .over none => exact h
  | .over (some record) => exact h.move _

theorem Follows.interrupt (h : s.Follows p) : s.interrupt.Follows p := by
  have hdue : Follows p { s with interruptAfter := none } := h.of_eq rfl rfl
  exact hdue.move .interrupt

theorem Follows.timeOut (h : s.Follows p) (now : Nat) : (s.timeOut now).Follows p := by
  have hjumped : Follows p { s with clock := s.clock.jump now } := h.of_eq rfl rfl
  exact (hjumped.move .expire).move .stopForTimeout

theorem Follows.interruptWait (h : s.Follows p) : s.interruptWait.Follows p := by
  unfold Simulation.interruptWait
  dsimp only
  split
  · split
    · exact h.interrupt.timeOut _
    · exact h.interrupt
  · exact h.interrupt

theorem Follows.forwardAll (h : s.Follows p) : s.forwardAll.Follows p := by
  have each : ∀ (fs : List Forward) (s : Simulation), s.Follows p →
      (fs.foldl Simulation.forward s).Follows p := by
    intro fs
    induction fs with
    | nil => exact fun _ h => h
    | cons f fs ih => exact fun s h => ih _ (h.forward f)
  have htaken : Follows p { s with stdin := [] } := h.of_eq rfl rfl
  exact each s.stdin _ htaken

theorem Follows.setClock (h : s.Follows p) (clock : Clock) : (s.setClock clock).Follows p := by
  have hset : Follows p { s with clock } := h.of_eq rfl rfl
  unfold Simulation.setClock
  split
  · have hforwarded := hset.forwardAll
    dsimp only
    generalize Simulation.forwardAll { s with clock } = s₁ at hforwarded ⊢
    have hinterrupted : (if s₁.interruptIsDue then s₁.interrupt else s₁).Follows p := by
      split
      · exact hforwarded.interrupt
      · exact hforwarded
    generalize (if s₁.interruptIsDue then s₁.interrupt else s₁) = s₂ at hinterrupted ⊢
    split
    · exact hinterrupted.timeOut _
    · exact hinterrupted
  · exact hset

theorem Follows.tick (h : s.Follows p) : s.tick.Follows p :=
  Follows.setClock (h.move .work) _

theorem Follows.work (h : s.Follows p) : s.work.Follows p := by
  obtain ⟨process, filter, stamp, stdout, stderr, stdin, interruptAfter, clock⟩ := s
  unfold Simulation.work
  split
  · exact h.tick
  · obtain ⟨hprocess, hstdout⟩ := process.run_stretch clock.left
    have hstretched : Follows p ⟨(process.stretch clock.left).2, filter, stamp, stdout, stderr,
        stdin, interruptAfter, clock⟩ :=
      h.run _ hprocess (by rw [hstdout, List.append_nil])
    dsimp only
    split
    · exact hstretched.setClock _
    · exact hstretched.tick

theorem Follows.wait (h : s.Follows p) (hwait : s.wait = some s') : s'.Follows p := by
  unfold Simulation.wait at hwait
  split at hwait
  · next next rest _ =>
    cases hwait
    have hread : Follows p { s with stdin := rest } := h.of_eq rfl rfl
    exact hread.forward next
  · split at hwait
    · cases hwait
      split
      · exact h.interruptWait
      · exact h.interrupt
    · obtain ⟨milliseconds, -, rfl⟩ := Option.map_eq_some_iff.mp hwait
      exact h.timeOut _

theorem Follows.runToEnd {rounds : Nat} (h : s.Follows p) (hend : s.runToEnd rounds = some s') :
    s'.Follows p := by
  induction rounds generalizing s with
  | zero => cases hend
  | succ rounds ih =>
    unfold Simulation.runToEnd at hend
    split at hend
    · cases hend
      exact h
    · split at hend
      · split at hend
        · next hwait => exact ih (h.wait hwait) hend
        · cases hend
      · exact ih h.work hend

end Simulation

end Brainfuck.CommandLine
