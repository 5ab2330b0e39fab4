import Brainfuck.Proofs.StandardOutput
import Brainfuck.Proofs.Stops

/-!
# What is said of a run that was stopped

A run can be stopped by an interrupt and because its time is up, and its result does not tell which of
the two it was. The main thread goes by the note that the time is up, at which it looks once it has
the result (`Process.Said`). The timeout thread makes that note before it asks for a stop, so a run
that it was the first to stop is put down to the time. But it makes the note also when an interrupt
has come first and the run is only not over yet, and then the time is blamed for what the interrupt
did (`Process.verdict_goes_by_the_note`).
-/

namespace Brainfuck

theorem System.eq_stop_of_milestone? {s s' : System} {a : Act}
    (h : s.milestone? a s' = some .stopped) : a = .stop := by
  cases a with
  | stop => rfl
  | call | push => cases h
  | advance index | refuse index reason | crash index =>
    simp only [milestone?] at h
    split at h
    · unfold Stage.milestone? at h
      split at h <;> cases h
    · cases h

namespace CommandLine

/-- The texts on standard error among what is written, apart from the log. -/
def complaintsOf (written : List Emission) : List String :=
  written.filterMap fun
    | .stderr text => some text
    | _ => none

@[simp] theorem complaintsOf_append (written later : List Emission) :
    complaintsOf (written ++ later) = complaintsOf written ++ complaintsOf later :=
  List.filterMap_append

namespace Process

variable {p : Process} {moves : List Move}

/-- While the program runs nothing is said. -/
theorem complaintsOf_emissions (events : List Event) :
    complaintsOf (events.flatMap emissions) = [] := by
  induction events with
  | nil => rfl
  | cons event events ih =>
    rw [List.flatMap_cons, complaintsOf_append, ih]
    cases event <;> rfl

/-! ## What the main thread looks at -/

/-- Moves leave alone what an invocation has been given. -/
theorem run_keeps (p : Process) (moves : List Move) :
    ∃ system timedOut stage, (p.run moves).1 = { p with system, timedOut, stage } := by
  induction moves using List.reverseRecOn with
  | nil => exact ⟨_, _, _, rfl⟩
  | append_singleton moves m ih =>
    obtain ⟨system, timedOut, stage, hsame⟩ := ih
    have hsteps := (p.run moves).1.steps m
    rw [run_snoc]
    generalize ((p.run moves).1.step m).1 = p' at hsteps
    generalize ((p.run moves).1.step m).2 = written at hsteps
    rw [hsame] at hsteps
    cases hsteps <;> exact ⟨_, _, _, rfl⟩

theorem settings_run (p : Process) (moves : List Move) :
    (p.run moves).1.settings = p.settings := by
  obtain ⟨system, timedOut, stage, hsame⟩ := p.run_keeps moves
  rw [hsame]

/-- The time is noted to be up by the move that notes it, and by no other. -/
theorem timedOut_step_iff (p : Process) (m : Move) :
    (p.step m).1.timedOut = true ↔ p.timedOut = true ∨ m = .expire := by
  cases m with
  | expire => simp [step]
  | stopForTimeout =>
    simp only [step]
    split <;> simp [engineAct_eq]
  | join | conclude =>
    simp only [step]
    split <;> simp
  | work | refuse | input | note | interrupt => simp [step, engineAct_eq]

theorem timedOut_run_iff (p : Process) (moves : List Move) :
    (p.run moves).1.timedOut = true ↔ p.timedOut = true ∨ .expire ∈ moves := by
  induction moves using List.reverseRecOn with
  | nil => simp [run]
  | append_singleton moves m ih =>
    rw [run_snoc, timedOut_step_iff, ih, List.mem_append, List.mem_singleton, or_assoc,
      eq_comm (a := m)]

/-- A result that is there stays. -/
theorem Started.result_stays (h : p.Started) {r : Result}
    (hr : (p.run moves).1.system.result? 0 = some r) (later : List Move) :
    (p.run (moves ++ later)).1.system.result? 0 = some r := by
  induction later using List.reverseRecOn with
  | nil => rwa [List.append_nil]
  | append_singleton later m ih =>
    rw [← List.append_assoc, run_snoc, system_step]
    obtain ⟨origin, -, hpath⟩ := h.onPath_run (moves ++ later)
    cases (p.run (moves ++ later)).1.act? m with
    | none => exact ih
    | some a => exact (hpath.act_of_result ih a).1

/-- What has been said after moves, by how far the main thread has come. -/
inductive Said (p : Process) (moves : List Move) : MainStage → List String → Prop where
  | waiting : Said p moves .waiting []
  | joined {r : Result} : Said p moves (.joined r) []
  /-- The main thread has judged the result by what it has found after the moves `looked`. -/
  | concluded {r : Result} {looked later : List Move} (split : moves = looked ++ .conclude :: later)
      (joined : (p.run looked).1.stage = .joined r) :
      Said p moves (.over ((p.run looked).1.verdict r).1)
        (complaintsOf ((p.run looked).1.verdict r).2)

/-- What has been said stands as before after a move that says nothing and leaves the main thread where
it is. -/
theorem Said.extend {stage : MainStage} {texts : List String} (h : p.Said moves stage texts)
    (m : Move) : p.Said (moves ++ [m]) stage (texts ++ []) := by
  rw [List.append_nil]
  cases h with
  | waiting => exact .waiting
  | joined => exact .joined
  | @concluded r looked later split joined =>
    have hsplit : moves ++ [m] = looked ++ .conclude :: (later ++ [m]) := by simp [split]
    exact .concluded hsplit joined

theorem Started.said (h : p.Started) (moves : List Move) :
    p.Said moves (p.run moves).1.stage (complaintsOf (p.run moves).2) := by
  induction moves using List.reverseRecOn with
  | nil =>
    show p.Said [] p.stage []
    rw [h.waiting]
    exact .waiting
  | append_singleton moves m ih =>
    have hsteps := (p.run moves).1.steps m
    rw [run_snoc, complaintsOf_append]
    generalize ((p.run moves).1.step m).1 = p' at hsteps
    generalize ((p.run moves).1.step m).2 = written at hsteps
    cases hsteps with
    | acts act =>
      rw [complaintsOf_emissions]
      exact ih.extend m
    | notes | expires | rests => exact ih.extend _
    | joins waiting result =>
      rw [waiting] at ih
      generalize complaintsOf (p.run moves).2 = texts at ih ⊢
      cases ih
      exact .joined
    | @concludes r joined =>
      have hstage := joined
      rw [joined] at ih
      generalize complaintsOf (p.run moves).2 = texts at ih ⊢
      cases ih
      exact .concluded rfl hstage

/-! ## The first stop -/

/-- After the moves `before`, in which nobody has asked for a stop, this move asks for one. -/
structure FirstStop (p : Process) (before : List Move) (m : Move) : Prop where
  stops : (p.run before).1.act? m = some .stop
  first : .stop ∉ p.acts before

theorem exists_firstStop (h : .stop ∈ p.acts moves) :
    ∃ before m later, moves = before ++ m :: later ∧ p.FirstStop before m := by
  induction moves using List.reverseRecOn with
  | nil => cases h
  | append_singleton moves m ih =>
    by_cases hearlier : .stop ∈ p.acts moves
    · obtain ⟨before, m', later, rfl, hfirst⟩ := ih hearlier
      exact ⟨before, m', later ++ [m], by simp, hfirst⟩
    · rw [acts_append, List.mem_append] at h
      have hlast := h.resolve_left hearlier
      simp only [acts, List.append_nil, Option.mem_toList] at hlast
      exact ⟨moves, m, [], rfl, hlast, hearlier⟩

/-- Nobody asks for a stop but an interrupt and, once the time is noted to be up, the timeout
thread. -/
theorem FirstStop.cases {before : List Move} {m : Move} (h : p.FirstStop before m) :
    m = .interrupt ∨ m = .stopForTimeout ∧ (p.run before).1.timedOut = true := by
  have hstops := h.stops
  cases m with
  | interrupt => exact .inl rfl
  | stopForTimeout =>
    refine .inr ⟨rfl, ?_⟩
    by_contra htimedOut
    simp [act?, htimedOut] at hstops
  | work =>
    simp only [act?, System.nextAct, Option.some.injEq] at hstops
    split at hstops <;> cases hstops
  | refuse | input | note | expire | join | conclude => cases hstops

/-- The first stop is among any moves in which somebody has asked for one. -/
theorem FirstStop.prefix_of_mem {before later looked rest : List Move} {m : Move}
    (h : p.FirstStop before m) (hmoves : before ++ m :: later = looked ++ rest)
    (hstop : .stop ∈ p.acts looked) : before ++ [m] <+: looked := by
  have hfirst : before ++ [m] <+: looked ++ rest := ⟨later, by rw [← hmoves]; simp⟩
  rcases List.prefix_or_prefix_of_prefix hfirst (List.prefix_append looked rest) with hle | hle
  · exact hle
  · rcases List.prefix_concat_iff.mp hle with rfl | ⟨more, rfl⟩
    · exact List.prefix_refl _
    · refine absurd ?_ h.first
      rw [acts_append]
      exact List.mem_append_left _ hstop

/-- A run that says that it was stopped was asked to stop. -/
theorem Started.stop_mem (h : p.Started) {o : Outcome}
    (hr : (p.run moves).1.system.result? 0 = some (.done o))
    (hcancelled : o.termination = .cancelled) : .stop ∈ p.acts moves := by
  obtain ⟨fresh, hfresh, hsystem⟩ := h.system
  rw [system_run, hsystem, ← System.after_append] at hr
  obtain ⟨past, since, rest, hhistory, hstopped⟩ := System.stopped_of_cancelled hfresh hr hcancelled
  obtain ⟨before, a, later, hacts, hm⟩ := System.exists_act_of_mem_history
    (show .stopped ∈ fresh.history _ by rw [hhistory]; simp [hstopped])
  obtain rfl := System.eq_stop_of_milestone? hm
  -- the call of the run itself asks for no stop
  have hstop : .stop ∈ [.call .spawn (.ofString p.source), .advance 0, .advance 0, .advance 0] ++
      p.acts moves := by
    rw [hacts]
    exact List.mem_append_right _ List.mem_cons_self
  simpa using hstop

/-! ## The verdict -/

theorem verdict_of_completed (p : Process) {o : Outcome} (h : o.termination = .completed) :
    p.verdict (.done o) = (0, [.stdout 10]) := by
  simp [verdict, h]

theorem verdict_of_cancelled_in_time {o : Outcome} (h : o.termination = .cancelled)
    (htimedOut : p.timedOut = false) :
    p.verdict (.done o) = (0, [.stderr stoppedText, .stdout 10]) := by
  simp [verdict, h, htimedOut]

theorem verdict_of_cancelled_too_late {o : Outcome} {ms : Nat} (h : o.termination = .cancelled)
    (htimedOut : p.timedOut = true) (htimeout : p.settings.timeoutMs = some ms) :
    p.verdict (.done o) = (1, [.stderr (timeoutText ms), .stdout 10]) := by
  simp [verdict, h, htimedOut, htimeout]

/-- Once there is a result the main thread ends the invocation, if it has not done so. -/
theorem exists_over {r : Result} (hr : (p.run moves).1.system.result? 0 = some r) :
    ∃ exit, (p.run (moves ++ [.join, .conclude])).1.stage = .over exit := by
  cases hstage : (p.run moves).1.stage with
  | waiting => exact ⟨_, stage_of_conclude hstage hr⟩
  | joined r' =>
    refine ⟨((p.run moves).1.verdict r').1, ?_⟩
    rw [run_append]
    simp [run, step, hstage]
  | _ =>
    rename_i exit
    refine ⟨exit, ?_⟩
    rw [run_append]
    simp [run, step, hstage]

/-- When the invocation is over the main thread has looked at the result once, and has said its
verdict on it and nothing else. -/
theorem Started.judged (h : p.Started) {r : Result} {exit : Nat}
    (hr : (p.run moves).1.system.result? 0 = some r) (hover : (p.run moves).1.stage = .over exit) :
    ∃ looked rest, moves = looked ++ .conclude :: rest ∧ (p.run looked).1.stage = .joined r ∧
      (p.run looked).1.system.result? 0 = some r ∧ exit = ((p.run looked).1.verdict r).1 ∧
      complaintsOf (p.run moves).2 = complaintsOf ((p.run looked).1.verdict r).2 := by
  have hsaid := h.said moves
  rw [hover] at hsaid
  generalize complaintsOf (p.run moves).2 = texts at hsaid ⊢
  cases hsaid with
  | @concluded r' looked rest split joined =>
    have standing := h.standing looked
    rw [joined] at standing
    generalize stdoutOf (p.run looked).2 = out at standing
    cases standing with
    | joined result =>
      have hstays := h.result_stays result (.conclude :: rest)
      rw [← split, hr] at hstays
      obtain rfl := Option.some.inj hstays
      exact ⟨looked, rest, split, joined, result, rfl, rfl⟩

/-- The verdict on a run that ended without a fault goes by the note that the time is up. A run that
came to its end exits with 0 and without a complaint, whatever the timeout thread does in the
meantime. A run that was stopped was stopped first by the timeout thread or by an interrupt. If it was
the timeout thread, the exit code is 1 and the text says that the time was exceeded. If it was an
interrupt, the exit code is 0 and the text says that the run was stopped, as long as the time is not
noted to be up before the main thread looks; but from then on the run is put down to the time. -/
theorem verdict_goes_by_the_note (h : p.Started) {ms : Nat} (htimeout : p.settings.timeoutMs = some ms)
    {o : Outcome} (hr : (p.run moves).1.system.result? 0 = some (.done o)) :
    (∃ exit, (p.run (moves ++ [.join, .conclude])).1.stage = .over exit) ∧
    ∀ exit, (p.run moves).1.stage = .over exit →
      (o.termination = .completed → exit = 0 ∧ complaintsOf (p.run moves).2 = []) ∧
      (o.termination = .cancelled →
        (∃ before m later, moves = before ++ m :: later ∧ p.FirstStop before m ∧
          (m = .interrupt ∨ m = .stopForTimeout)) ∧
        ∀ before m later, moves = before ++ m :: later → p.FirstStop before m →
          (m = .stopForTimeout → exit = 1 ∧ complaintsOf (p.run moves).2 = [timeoutText ms]) ∧
          (m = .interrupt → ∃ looked rest, moves = looked ++ .conclude :: rest ∧
            (p.run looked).1.stage = .joined (.done o) ∧ before ++ [m] <+: looked ∧
            (.expire ∉ looked → exit = 0 ∧ complaintsOf (p.run moves).2 = [stoppedText]) ∧
            (.expire ∈ looked → exit = 1 ∧ complaintsOf (p.run moves).2 = [timeoutText ms]))) := by
  refine ⟨exists_over hr, fun exit hover => ?_⟩
  obtain ⟨looked, rest, hsplit, hjoined, hresult, hexit, htexts⟩ := h.judged hr hover
  rw [hexit, htexts]
  constructor
  · intro hcompleted
    rw [verdict_of_completed _ hcompleted]
    exact ⟨rfl, rfl⟩
  · intro hcancelled
    have hnoted : (p.run looked).1.timedOut = true ↔ .expire ∈ looked := by
      rw [timedOut_run_iff, h.inTime]
      simp
    have htoo_late : .expire ∈ looked →
        (p.run looked).1.verdict (.done o) = (1, [.stderr (timeoutText ms), .stdout 10]) :=
      fun hexpire => verdict_of_cancelled_too_late hcancelled (hnoted.mpr hexpire)
        ((settings_run p looked).symm ▸ htimeout)
    have hin_time : .expire ∉ looked →
        (p.run looked).1.verdict (.done o) = (0, [.stderr stoppedText, .stdout 10]) :=
      fun hexpire => verdict_of_cancelled_in_time hcancelled
        (Bool.not_eq_true _ ▸ hexpire ∘ hnoted.mp)
    have hstop := h.stop_mem hresult hcancelled
    constructor
    · obtain ⟨before, m, later, heq, hfirst⟩ := exists_firstStop hstop
      refine ⟨before, m, later ++ .conclude :: rest, by simp [hsplit, heq], hfirst, ?_⟩
      exact hfirst.cases.imp_right And.left
    · intro before m later hmoves hfirst
      have hbefore := hfirst.prefix_of_mem (hmoves.symm.trans hsplit) hstop
      constructor
      · rintro rfl
        -- the timeout thread has made its note before it could ask for the stop
        obtain ⟨-, htimedOut⟩ := hfirst.cases.resolve_left nofun
        have hexpire : .expire ∈ before := by
          rwa [timedOut_run_iff, h.inTime, Bool.false_eq_true, false_or] at htimedOut
        have hlooked := hbefore.subset (List.mem_append_left _ hexpire)
        rw [htoo_late hlooked]
        exact ⟨rfl, rfl⟩
      · rintro rfl
        refine ⟨looked, rest, hsplit, hjoined, hbefore, fun hexpire => ?_, fun hexpire => ?_⟩
        · rw [hin_time hexpire]
          exact ⟨rfl, rfl⟩
        · rw [htoo_late hexpire]
          exact ⟨rfl, rfl⟩

/-- The timeout thread stops a run that waits for input, and an interrupt comes later. -/
theorem verdict_goes_by_the_note_of_timeout :
    let p : Process := ⟨"jbf", false, ",", ⟨1, some 7⟩,
      ⟨⟨1, .empty, true, true⟩, #[⟨.spawn, .ofString ",", .launching⟩]⟩, false, .waiting⟩
    let before : List Move := List.replicate 4 .work ++ [.expire]
    let moves := before ++ .stopForTimeout :: .interrupt :: List.replicate 4 .work ++
      [.join, .conclude]
    p.Started ∧ p.FirstStop before .stopForTimeout ∧ (p.run moves).1.stage = .over 1 ∧
      complaintsOf (p.run moves).2 = [timeoutText 7] := by
  intro p before moves
  have started : p.Started := ⟨⟨_, rfl, rfl⟩, rfl, rfl⟩
  have hr : (p.run moves).1.system.result? 0 = some (.done ⟨#[], .cancelled, ⟨#[0], 0⟩⟩) := by decide
  have first : p.FirstStop before .stopForTimeout := ⟨rfl, by decide⟩
  have hover : (p.run moves).1.stage = .over 1 := rfl
  obtain ⟨-, verdict⟩ := verdict_goes_by_the_note started rfl hr
  have htexts := ((verdict 1 hover).2 rfl).2 before _ _ (List.append_assoc ..) first
  exact ⟨started, first, hover, (htexts.1 rfl).2⟩

/-- An interrupt stops a run that has printed a byte and waits for another. The time is up before the
worker is done waiting, and the run is put down to the time. -/
theorem interrupt_is_put_down_to_the_time :
    let p : Process := ⟨"jbf", false, ",.,", ⟨1, some 5⟩,
      ⟨⟨1, .empty, true, true⟩, #[⟨.spawn, .ofString ",.,", .launching⟩]⟩, false, .waiting⟩
    let before : List Move := .input [65] :: List.replicate 8 .work
    let moves := before ++ .interrupt :: .expire :: .stopForTimeout :: List.replicate 4 .work ++
      [.join, .conclude]
    p.Started ∧ p.FirstStop before .interrupt ∧ .expire ∉ before ∧
      (p.run moves).1.system.result? 0 = some (.done ⟨#[65], .cancelled, ⟨#[65], 0⟩⟩) ∧
      (p.run moves).1.stage = .over 1 ∧
      complaintsOf (p.run moves).2 = [timeoutText 5] ∧ timeoutText 5 ≠ stoppedText := by
  intro p before moves
  have started : p.Started := ⟨⟨_, rfl, rfl⟩, rfl, rfl⟩
  exact ⟨started, ⟨rfl, by decide⟩, by simp [before], by decide, rfl, by decide, by decide⟩

end Process

end CommandLine

end Brainfuck
