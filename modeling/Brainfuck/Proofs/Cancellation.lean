import Brainfuck.Proofs.Progress

/-!
# A run that is stopped

A stop ends a run between two operators, never inside one. Whatever moment it comes at, the run
returns what the run without stops has after the same number of operators: its tape, its output and
the bytes it has taken (`System.stop_falls_between_operators`). A `,` that was waiting has taken
nothing then, and one that has taken its byte has stored it.

The run is on the path of its program's sequential machine, stops or not; a stop only decides how
far it comes. That the run without stops does get as far is `Carries.follows`.
-/

namespace Brainfuck.System

variable {memory index index₀ : Nat} {program : Program} {origin : Machine} {stream : List UInt8}
  {done : List Completion} {s s₀ : System} {acts : List Act}

/-- The outcome of a run is what the machine holds at the end of the run's path. -/
theorem OnPath.exists_outcome (h : s.OnPath program origin index stream done) {o : Outcome}
    (hr : s.result? index = some (.done o)) :
    ∃ n t, Sequential.Path program n ⟨origin, stream⟩ done t ∧ o = t.machine.outcome program := by
  obtain ⟨n, t, path, explains⟩ := h.path_of_closing (h.stage_of_result hr)
  refine ⟨n, t, path, ?_⟩
  generalize hresult : Result.done o = r at explains
  cases explains with
  | done => exact Result.done.inj hresult
  | @failed failure => cases failure <;> cases hresult
  | refused => cases hresult
  | crashed => cases hresult

/-- The first operators of a run that is on the same path and has completed as many. -/
theorem OnPath.take_eq {all : List Completion} {n : Nat} {t : Sequential}
    (h : s.OnPath program origin index stream all)
    (path : Sequential.Path program n ⟨origin, stream⟩ done t)
    (hlength : done.length ≤ all.length) : all.take done.length = done := by
  obtain ⟨c, -, -, hfollows⟩ := h.call
  obtain ⟨n', t', path'⟩ := hfollows.path
  rcases path.comparable path' with hfirst | hfirst
  · exact (List.prefix_iff_eq_take.mp hfirst).symm
  · rw [hfirst.eq_of_length_le hlength, List.take_length]

/-- A run that is let go on gets to every state on the path of its program's machine. -/
theorem Begun.gets_to (h : s.Begun memory program index)
    (hstart : Machine.start memory = .ok origin) {n : Nat} {t : Sequential}
    (path : Sequential.Path program n ⟨origin, stream⟩ done t) :
    ∃ acts distance, .stop ∉ acts ∧ pushed acts = stream ∧ s.completions index acts = done ∧
      (s.after acts).Carries program index t distance := by
  obtain ⟨⟨distance, hcarries⟩, hnone⟩ := h.launches hstart stream
  obtain ⟨often, distance', hcarries', hdone⟩ := hcarries.follows path
  refine ⟨.push stream :: goOn index 2 ++ goOn index often, distance', ?_, ?_, ?_, ?_⟩
  · simp [goOn, List.mem_replicate]
  · rw [pushed_append, pushed_cons, pushed_goOn, pushed_goOn, List.append_nil, List.append_nil]
    rfl
  · rw [completions_append, hnone, hdone, List.nil_append]
  · rw [after_append]
    exact hcarries'

/-- The queue holds the bytes that were pushed and not popped, until the run releases the
engine. -/
theorem OnPath.pushed_eq (h : s.OnPath program origin index [] []) (acts : List Act)
    (howns : (s.after acts).Owns index) :
    pushed acts = s.popped index acts ++ (s.after acts).engine.queue.bytes := by
  have hafter := h.after acts
  rw [List.nil_append, List.nil_append] at hafter
  obtain ⟨c, hc, -, hfollows⟩ := hafter.call
  rw [h.popped_eq]
  exact hfollows.stream_eq (Machine.start_inBounds hafter.start) ((inStage_call hc _).mp howns)

/-- A run that returns an outcome, stopped or not, has carried out the first `k` operators of the
run that is given the same bytes and not stopped, and nothing else: it returns the tape and the
output after them, and it has taken the bytes that they take. The run that is not stopped gets that
far. The queue keeps every other byte, and every byte that was taken was stored. -/
theorem stop_falls_between_operators (h : s.Begun memory program index) {o : Outcome}
    (hr : (s.after acts).result? index = some (.done o)) (h₀ : s₀.Begun memory program index₀) :
    ∃ k origin, Machine.start memory = .ok origin ∧
      (∀ acts₀, .stop ∉ acts₀ → pushed acts₀ = pushed acts →
        k ≤ (s₀.completions index₀ acts₀).length →
        o.tape = (lastMachine origin ((s₀.completions index₀ acts₀).take k)).tape ∧
        o.output = (lastMachine origin ((s₀.completions index₀ acts₀).take k)).output ∧
        s.popped index acts = takenBytes ((s₀.completions index₀ acts₀).take k)) ∧
      (∃ acts₀ m, .stop ∉ acts₀ ∧ pushed acts₀ = pushed acts ∧
        (s₀.completions index₀ acts₀).length = k ∧ (s₀.after acts₀).machine? index₀ = some m ∧
        o.tape = m.tape ∧ o.output = m.output ∧
        s.popped index acts = s₀.popped index₀ acts₀) ∧
      (∀ before later, acts = before ++ later → (s.after before).Owns index →
        pushed before = s.popped index before ++ (s.after before).engine.queue.bytes) ∧
      ∀ c ∈ s.completions index acts, ∀ value, c.taken = some value →
        c.machine.tape.current? = some value := by
  obtain ⟨origin, hstart, hpath⟩ := h.onPath
  obtain ⟨origin', hstart', hpath₀⟩ := h₀.onPath
  cases hstart.symm.trans hstart'
  have hbounds : origin.tape.InBounds := Machine.start_inBounds hstart
  have hafter := hpath.after acts
  rw [List.nil_append, List.nil_append] at hafter
  obtain ⟨n, t, path, rfl⟩ := hafter.exists_outcome hr
  refine ⟨(s.completions index acts).length, origin, hstart, ?_, ?_, ?_, ?_⟩
  · -- the other run is on the same path, so its first operators are those of this run
    intro acts₀ _ hpushed hlength
    have hafter₀ := hpath₀.after acts₀
    rw [List.nil_append, List.nil_append, hpushed] at hafter₀
    obtain ⟨htape, houtput⟩ := path.lastMachine_eq hbounds rfl rfl
    rw [hafter₀.take_eq path hlength]
    exact ⟨htape.symm, houtput.symm, hpath.popped_eq acts⟩
  · obtain ⟨acts₀, distance, hstop, hpushed, hdone, hcarries⟩ := h₀.gets_to hstart path
    obtain ⟨c, w, hc, hstage, -, -, rfl, -⟩ := hcarries.call
    refine ⟨acts₀, w.machine, hstop, hpushed, by rw [hdone], ?_, rfl, rfl, ?_⟩
    · simp [machine?, hc, Call.machine?, hstage]
    · rw [hpath.popped_eq, hpath₀.popped_eq, hdone]
  · intro before later _ howns
    exact hpath.pushed_eq before howns
  · intro c hc value htaken
    exact path.stored hbounds hc htaken

/-- A stop after a `,` has taken its byte and before the cell is printed. -/
theorem stop_falls_between_operators_of_echo :
    let echo : Program := ⟨#[some .read, some .print]⟩
    let s : System := ⟨⟨1, .empty, false, true⟩, #[⟨.run, echo, .cleared⟩]⟩
    let acts : List Act := .push [7, 8] :: goOn 0 4 ++ .stop :: goOn 0 3
    s.Begun 1 echo 0 ∧
      (s.after acts).result? 0 = some (.done ⟨#[], .cancelled, ⟨#[7], 0⟩⟩) ∧
      ∃ k acts₀ m, .stop ∉ acts₀ ∧ pushed acts₀ = [7, 8] ∧ (s.completions 0 acts₀).length = k ∧
        (s.after acts₀).machine? 0 = some m ∧ ⟨#[7], 0⟩ = m.tape ∧ #[] = m.output := by
  intro echo s acts
  have begun : s.Begun 1 echo 0 :=
    ⟨_, [.call .run echo, .advance 0], _, rfl, rfl, rfl, rfl, rfl⟩
  have hr : (s.after acts).result? 0 = some (.done ⟨#[], .cancelled, ⟨#[7], 0⟩⟩) := by decide
  obtain ⟨k, origin, -, -, ⟨acts₀, m, hstop, hpushed, hk, hm, htape, houtput, -⟩, -⟩ :=
    stop_falls_between_operators begun hr begun
  exact ⟨begun, hr, k, acts₀, m, hstop, hpushed, hk, hm, htape, houtput⟩

end Brainfuck.System
