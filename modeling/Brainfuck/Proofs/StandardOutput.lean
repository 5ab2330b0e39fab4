import Brainfuck.Proofs.Opening
import Brainfuck.Proofs.Turns
import Mathlib.Data.List.Induction

/-!
# Standard output

While a program runs only its output sink writes to standard output, and the main thread adds one line
feed when it has learnt the result; so what an invocation has written there follows from how far its
main thread has come (`Process.Standing`). Each move keeps this: an act of the engine writes what the
run prints in it, and once there is a result the run prints nothing more.

An invocation either ends before there is a run, with nothing on standard output, or it starts a run
to which this applies; and one whose threads take turns by a fixed rule is no exception, since its
rule only picks the moves (`Simulation.Follows`).
-/

namespace Brainfuck.CommandLine

/-! ## The end of an invocation -/

/-- What the main thread adds to standard output when it has learnt the result: a line feed, unless
there was no thread for the run. -/
def lineEnd : Result → List UInt8
  | .failed (.noThread _) => []
  | _ => [10]

/-- The exit code for a result, by whether the time is noted to be up when the main thread looks. -/
def exitCode (timedOut : Bool) : Result → Nat
  | .done o => if o.termination = .cancelled ∧ timedOut = true then 1 else 0
  | _ => 1

namespace Process

variable {p : Process}

theorem verdict_exit (p : Process) (r : Result) : (p.verdict r).1 = exitCode p.timedOut r := by
  cases r with
  | done o =>
    obtain ⟨output, termination, tape⟩ := o
    cases termination <;> cases htimedOut : p.timedOut <;> simp [verdict, exitCode, htimedOut]
  | failed cause => cases cause <;> rfl
  | crashed => rfl

theorem stdoutOf_verdict (p : Process) (r : Result) : stdoutOf (p.verdict r).2 = lineEnd r := by
  cases r with
  | done o =>
    obtain ⟨output, termination, tape⟩ := o
    cases termination <;> cases htimedOut : p.timedOut <;>
      simp [verdict, lineEnd, htimedOut, stdoutOf]
  | failed cause => cases cause <;> rfl
  | crashed => rfl

/-- The bytes that the operators print which the run completes under moves. -/
def printed (p : Process) (moves : List Move) : List UInt8 :=
  printedBytes (.ofString p.source) (p.system.completions 0 (p.acts moves))

/-- What has been written to standard output after moves, by how far the main thread has come. -/
inductive Standing (p : Process) (moves : List Move) : MainStage → List UInt8 → Prop where
  | waiting : Standing p moves .waiting (p.printed moves)
  | joined {r : Result} (result : (p.run moves).1.system.result? 0 = some r) :
      Standing p moves (.joined r) (p.printed moves)
  /-- The main thread has looked at the time after it had learnt the result. -/
  | concluded {r : Result} {before later : List Move}
      (result : (p.run moves).1.system.result? 0 = some r)
      (split : moves = before ++ .conclude :: later) (joined : (p.run before).1.stage = .joined r) :
      Standing p moves (.over (exitCode (p.run before).1.timedOut r))
        (p.printed moves ++ lineEnd r)

theorem run_snoc (p : Process) (moves : List Move) (m : Move) :
    p.run (moves ++ [m]) =
      (((p.run moves).1.step m).1, (p.run moves).2 ++ ((p.run moves).1.step m).2) := by
  rw [run_append]
  simp [run]

theorem printed_snoc (p : Process) (moves : List Move) (m : Move) :
    p.printed (moves ++ [m]) = p.printed moves ++ printedBytes (.ofString p.source)
      ((p.run moves).1.system.completions 0 ((p.run moves).1.act? m).toList) := by
  rw [printed, acts_append, System.completions_append, printedBytes_append, ← system_run]
  simp [acts, printed]

/-- A move that is no act of the engine prints nothing. -/
theorem printed_snoc_of_none {moves : List Move} {m : Move}
    (hact : (p.run moves).1.act? m = none) : p.printed (moves ++ [m]) = p.printed moves := by
  rw [printed_snoc, hact]
  exact List.append_nil _

/-- What has been written stands as before after a move that prints `more` and leaves the main thread
where it is, if a run with a result prints nothing. -/
theorem Standing.extend {moves : List Move} {m : Move} {stage : MainStage} {out more : List UInt8}
    (h : p.Standing moves stage out) (hprinted : p.printed (moves ++ [m]) = p.printed moves ++ more)
    (hresult : ∀ r, (p.run moves).1.system.result? 0 = some r →
      (p.run (moves ++ [m])).1.system.result? 0 = some r ∧ more = []) :
    p.Standing (moves ++ [m]) stage (out ++ more) := by
  cases h with
  | waiting =>
    rw [← hprinted]
    exact .waiting
  | joined result =>
    rw [← hprinted]
    exact .joined (hresult _ result).1
  | @concluded r before later result split joined =>
    obtain ⟨result', rfl⟩ := hresult _ result
    rw [List.append_nil] at hprinted ⊢
    rw [← hprinted]
    have hsplit : moves ++ [m] = before ++ .conclude :: (later ++ [m]) := by simp [split]
    exact .concluded result' hsplit joined

/-- What has been written stands as said after one more move. -/
theorem Standing.snoc (h : p.Started) {moves : List Move}
    (standing : p.Standing moves (p.run moves).1.stage (stdoutOf (p.run moves).2)) (m : Move) :
    p.Standing (moves ++ [m]) (p.run (moves ++ [m])).1.stage
      (stdoutOf (p.run (moves ++ [m])).2) := by
  obtain ⟨origin, -, hpath⟩ := h.onPath_run moves
  have hsteps := (p.run moves).1.steps m
  have hsame : (p.run (moves ++ [m])).1 = ((p.run moves).1.step m).1 := by rw [run_snoc]
  rw [run_snoc, stdoutOf_append]
  generalize ((p.run moves).1.step m).1 = p' at hsteps hsame
  generalize ((p.run moves).1.step m).2 = written at hsteps
  -- a move that is no act of the engine prints nothing and leaves the result as it was
  have rest : ∀ {stage : MainStage} {out : List UInt8}, (p.run moves).1.act? m = none →
      p'.system = (p.run moves).1.system → p.Standing moves stage out →
      p.Standing (moves ++ [m]) stage (out ++ []) := by
    intro stage out hact hsystem hstanding
    refine hstanding.extend (by rw [printed_snoc_of_none hact, List.append_nil]) fun r hr => ?_
    rw [hsame]
    exact ⟨hsystem ▸ hr, rfl⟩
  cases hsteps with
  | acts act =>
    refine standing.extend ?_ fun r hr => ?_
    · rw [printed_snoc, act, stdoutOf_act hpath act]
      simp [System.completions]
    · obtain ⟨hresult, hnone⟩ := hpath.act_of_result hr _
      rw [hsame, stdoutOf_act hpath act, hnone]
      exact ⟨hresult, rfl⟩
  | notes | expires => exact rest rfl rfl standing
  | rests act => exact rest act rfl standing
  | joins waiting result =>
    have hprinted : p.printed (moves ++ [.join]) = p.printed moves := printed_snoc_of_none rfl
    rw [waiting] at standing
    generalize stdoutOf (p.run moves).2 = out at standing ⊢
    cases standing
    rw [stdoutOf_nil, List.append_nil, ← hprinted]
    exact .joined (hsame ▸ result)
  | @concludes r joined =>
    have hprinted : p.printed (moves ++ [.conclude]) = p.printed moves := printed_snoc_of_none rfl
    have hstage := joined
    rw [joined] at standing
    generalize stdoutOf (p.run moves).2 = out at standing ⊢
    cases standing with
    | joined result =>
      rw [verdict_exit, stdoutOf_verdict, ← hprinted]
      exact .concluded (hsame ▸ result) rfl hstage

theorem Started.standing (h : p.Started) (moves : List Move) :
    p.Standing moves (p.run moves).1.stage (stdoutOf (p.run moves).2) := by
  induction moves using List.reverseRecOn with
  | nil =>
    have hnothing : p.printed [] = [] := rfl
    show p.Standing [] p.stage []
    rw [h.waiting, ← hnothing]
    exact .waiting
  | append_singleton moves m ih => exact ih.snoc h m

/-- Once there is a result the main thread learns it and ends the invocation. -/
theorem stage_of_conclude {moves : List Move} {r : Result} (hstage : (p.run moves).1.stage = .waiting)
    (hr : (p.run moves).1.system.result? 0 = some r) :
    (p.run (moves ++ [.join, .conclude])).1.stage = .over (exitCode (p.run moves).1.timedOut r) := by
  rw [run_append, ← verdict_exit]
  simp [run, step, hstage, hr]
  rfl

/-- What an invocation that has started does with the output of its run, after any moves. -/
structure Streams (p : Process) (moves : List Move) : Prop where
  /-- The run is on the path of its program's machine, with what was passed on as its input. -/
  path : ∃ origin steps t, Machine.start p.settings.memorySize = .ok origin ∧
    Sequential.Path (.ofString p.source) steps ⟨origin, moves.flatMap Move.passed⟩
      (p.system.completions 0 (p.acts moves)) t
  standing : p.Standing moves (p.run moves).1.stage (stdoutOf (p.run moves).2)
  /-- A run with an outcome has written all its output. -/
  outcome : ∀ o, (p.run moves).1.system.result? 0 = some (.done o) →
    o.output.toList = p.printed moves
  /-- A run that is refused its thread has written nothing. -/
  refused : ∀ reason, (p.run moves).1.system.result? 0 = some (.failed (.noThread reason)) →
    p.printed moves = []
  /-- When the run is over the main thread can end the invocation, with the exit code for the
  result. -/
  concludes : ∀ r, (p.run moves).1.stage = .waiting →
    (p.run moves).1.system.result? 0 = some r →
    (p.run (moves ++ [.join, .conclude])).1.stage = .over (exitCode (p.run moves).1.timedOut r)

theorem Started.streams (h : p.Started) (moves : List Move) : p.Streams moves := by
  obtain ⟨origin, hstart, hpath⟩ := h.onPath
  have hlater := hpath.after (p.acts moves)
  rw [List.nil_append, List.nil_append, ← system_run] at hlater
  have hfresh : origin.output.toList = [] := by
    obtain ⟨tape, -, rfl⟩ := Machine.start_eq_ok hstart
    rfl
  refine ⟨?_, h.standing moves, fun o hr => ?_, fun reason hr => ?_,
    fun r hstage hr => stage_of_conclude hstage hr⟩
  · obtain ⟨c, hc, -, hfollows⟩ := hlater.call
    obtain ⟨steps, t, path⟩ := hfollows.path
    rw [pushed_acts] at path
    exact ⟨origin, steps, t, hstart, path⟩
  · rw [hlater.output_eq hr, hfresh]
    rfl
  · have hnothing : p.system.Refused 0 [] := fun _ _ _ => rfl
    have hrefused := hpath.refused_after hnothing (p.acts moves)
    rw [List.nil_append, ← system_run] at hrefused
    rw [printed, hrefused reason 0 (hlater.stage_of_result hr), printedBytes_nil]

end Process

/-! ## Invocations -/

namespace Surroundings

variable {s : Surroundings} {request : RunRequest} {p : Process} {said : List Emission}

/-- What an invocation with a run leaves behind is what its moves have led to. -/
theorem moves_of_transcript (hopening : s.opening = .running p said) (hsaid : stdoutOf said = [])
    {t : Transcript} (ht : s.transcript = some t) :
    ∃ moves, (p.run moves).1.stage = .over t.exit ∧
      t.stdout.toList = stdoutOf (p.run moves).2 := by
  have hstart : (s.simulation p said).Follows p := by
    have hfresh : ∀ start : Simulation, start.process = p → start.stdout = (stdoutOf said).toArray →
        start.Follows p := by
      rintro start rfl hstdout
      exact ⟨[], rfl, by rw [hstdout, hsaid]; rfl⟩
    unfold simulation
    split
    · exact (hfresh _ rfl rfl).move _
    · exact hfresh _ rfl rfl
  unfold transcript at ht
  rw [hopening] at ht
  obtain ⟨last, hlast, hover⟩ := Option.bind_eq_some_iff.mp ht
  obtain ⟨moves, hprocess, hstdout⟩ := ((hstart.runToEnd hlast).move .join).move .conclude
  obtain ⟨exit, hexit, rfl⟩ := Option.map_eq_some_iff.mp hover
  refine ⟨moves, ?_, hstdout⟩
  rw [hprocess]
  unfold Process.exit? at hexit
  split at hexit
  · next hstage => cases hexit; exact hstage
  · cases hexit

/-- Standard output carries exactly what the program prints. Let the arguments ask for the program in
a file or for the one that they spell, but not for both. When the file cannot be read or the engine
is to have no cells, the invocation is over at once, with exit code 1 and nothing on standard output.
Otherwise it starts a run of that program, and after any moves of its threads, in any order, standard
output holds the bytes of those `.` that the run has completed on the path of its machine, in order,
and when the main thread has ended the invocation a line feed behind them, whatever the result of the
run is; only if there was no thread for the run it holds nothing. The exit code is 0 at the end of the
program, at a stop 1 or 0 as the time is noted to be up or not when the main thread looks after it has
learnt the result, and 1 after any fault. -/
theorem standard_output_is_the_programs
    (hparse : Arguments.parse s.arguments = some ⟨false, some request⟩)
    (hhelp : request.help = false) (hone : request.file = none ↔ request.code ≠ []) :
    ((∃ e, s.programText request = .error e) ∨ (s.settings request).memorySize = 0 →
      ∃ written text, s.opening = .over 1 written ∧ stdoutOf written = [] ∧
        s.transcript = some ⟨1, #[], text⟩) ∧
    ∀ source, s.programText request = .ok source → (s.settings request).memorySize ≠ 0 →
      ∃ p said, s.opening = .running p said ∧ stdoutOf said = [] ∧ p.source = source ∧
        p.settings = s.settings request ∧ (∀ moves, p.Streams moves) ∧
        ∀ t, s.transcript = some t → ∃ moves, (p.run moves).1.stage = .over t.exit ∧
          t.stdout.toList = stdoutOf (p.run moves).2 := by
  have hopening := opening_of_request hparse hhelp hone
  constructor
  · intro hcause
    have hover : ∃ written, s.opening = .over 1 written ∧ stdoutOf written = [] := by
      rcases hopening with ⟨e, -, hopens⟩ | ⟨source, htext, hopens⟩
      · exact ⟨_, hopens, rfl⟩
      · rcases s.openSource_cases source request with ⟨-, written, hwritten, hsilent⟩ | ⟨hmemory, -⟩
        · exact ⟨written, hopens.trans hwritten, hsilent⟩
        · rcases hcause with ⟨e, he⟩ | hzero
          · rw [htext] at he
            cases he
          · exact absurd hzero hmemory
    obtain ⟨written, hwritten, hsilent⟩ := hover
    refine ⟨written, stderrOf s.filter s.stamp written, hwritten, hsilent, ?_⟩
    simp only [transcript, hwritten, hsilent]
  · intro source htext hmemory
    obtain ⟨source', htext', hopens⟩ : ∃ source, s.programText request = .ok source ∧
        s.opening = s.openSource source request := by
      rcases hopening with ⟨e, he, -⟩ | hok
      · rw [htext] at he
        cases he
      · exact hok
    obtain rfl : source' = source := Except.ok.inj (htext'.symm.trans htext)
    rcases s.openSource_cases source' request with ⟨hzero, -⟩ |
      ⟨-, p, said, hsaid, hsilent, hsource, hsettings, started⟩
    · exact absurd hzero hmemory
    · exact ⟨p, said, hopens.trans hsaid, hsilent, hsource, hsettings, started.streams,
        fun t ht => moves_of_transcript (hopens.trans hsaid) hsilent ht⟩

/-- A program that prints a byte and then moves off its tape. -/
theorem standard_output_is_the_programs_of_fault :
    let s : Surroundings :=
      ⟨"jbf", ["run", "-m", "1", "+.>"], [], none, none, ⟨[], [], 0, []⟩, [], none, none, ""⟩
    let request : RunRequest := ⟨none, some 1, none, false, ["+.>"]⟩
    let moves := List.replicate 8 Move.work ++ [.join, .expire, .conclude]
    Arguments.parse s.arguments = some ⟨false, some request⟩ ∧
      request.help = false ∧ (request.file = none ↔ request.code ≠ []) ∧
      s.programText request = .ok "+.>" ∧ (s.settings request).memorySize ≠ 0 ∧
      ∃ p said, s.opening = .running p said ∧ p.Streams moves ∧
        (p.run moves).1.stage = .over 1 ∧ stdoutOf (p.run moves).2 = [1, 10] := by
  intro s request moves
  have hparse : Arguments.parse s.arguments = some ⟨false, some request⟩ := by decide
  have hone : request.file = none ↔ request.code ≠ [] := by decide
  have htext : s.programText request = .ok "+.>" := rfl
  have hmemory : (s.settings request).memorySize ≠ 0 := by decide
  obtain ⟨p, said, hopening, -, -, -, streams, -⟩ :=
    (standard_output_is_the_programs hparse rfl hone).2 _ htext hmemory
  obtain ⟨said', hstart⟩ : ∃ said, s.opening = .running ⟨"jbf", false, "+.>", ⟨1, none⟩,
      ⟨⟨1, .empty, true, true⟩, #[⟨.spawn, .ofString "+.>", .launching⟩]⟩, false, .waiting⟩ said :=
    ⟨_, rfl⟩
  rw [hstart] at hopening
  cases hopening
  exact ⟨hparse, rfl, hone, htext, hmemory, _, _, hstart, streams moves, rfl, by decide⟩

end Surroundings

end Brainfuck.CommandLine
