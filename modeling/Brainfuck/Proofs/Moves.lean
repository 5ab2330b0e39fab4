import Brainfuck.CommandLine.Process
import Brainfuck.Proofs.Course
import Brainfuck.Proofs.Streaming

/-!
# Moves of an invocation

An invocation is its engine under a schedule, with two notes beside it: that the time is up, and how
far the main thread has come. `Process.Steps` lists what a move does to the three, and every later
proof takes a move apart with it. `Process.acts` is the schedule that moves make, and a list of moves
leaves the engine as its schedule does (`Process.system_run`).

The run of an invocation is on the path of its program's machine from the start on, with the bytes
that are passed on as input (`Process.onPath`).
-/

namespace Brainfuck.CommandLine

@[simp] theorem stdoutOf_nil : stdoutOf [] = [] := rfl

@[simp] theorem stdoutOf_append (written later : List Emission) :
    stdoutOf (written ++ later) = stdoutOf written ++ stdoutOf later :=
  List.filterMap_append

/-- The bytes of standard input that a move passes on. -/
def Move.passed : Move → List UInt8
  | .input bytes => bytes
  | _ => []

namespace Process

/-- The act of the engine that a move is, if it is one. -/
def act? (p : Process) : Move → Option Act
  | .work => some (p.system.nextAct 0)
  | .refuse reason => some (.refuse 0 reason)
  | .input bytes => some (.push bytes)
  | .interrupt => some .stop
  | .stopForTimeout => if p.timedOut then some .stop else none
  | .note _ | .expire | .join | .conclude => none

/-- What a move does, and what it writes. -/
inductive Steps (p : Process) : Move → Process → List Emission → Prop where
  | acts {m : Move} {a : Act} (act : p.act? m = some a) :
      Steps p m { p with system := (p.system.act a).1 } ((p.system.act a).2.flatMap emissions)
  | notes {record : LogRecord} : Steps p (.note record) p [.log record]
  | expires : Steps p .expire { p with timedOut := true } []
  | joins {r : Result} (waiting : p.stage = .waiting) (result : p.system.result? 0 = some r) :
      Steps p .join { p with stage := .joined r } []
  | concludes {r : Result} (joined : p.stage = .joined r) :
      Steps p .conclude { p with stage := .over (p.verdict r).1 } (p.verdict r).2
  | rests {m : Move} (act : p.act? m = none) : Steps p m p []

theorem engineAct_eq (a : Act) (p : Process) :
    p.engineAct a =
      ({ p with system := (p.system.act a).1 }, (p.system.act a).2.flatMap emissions) := by
  obtain ⟨name, terminal, source, settings, system, timedOut, stage⟩ := p
  rfl

theorem Steps.of_act {p : Process} {m : Move} {a : Act} (hact : p.act? m = some a)
    (hstep : p.step m = p.engineAct a) : p.Steps m (p.step m).1 (p.step m).2 := by
  rw [hstep, engineAct_eq]
  exact .acts hact

theorem steps (p : Process) (m : Move) : p.Steps m (p.step m).1 (p.step m).2 := by
  cases m with
  | work => exact .of_act rfl rfl
  | refuse reason => exact .of_act rfl rfl
  | input bytes => exact .of_act rfl rfl
  | interrupt => exact .of_act rfl rfl
  | note record => exact .notes
  | expire => exact .expires
  | stopForTimeout =>
    cases htimedOut : p.timedOut with
    | false =>
      have hact : p.act? .stopForTimeout = none := by simp [act?, htimedOut]
      simpa [step, htimedOut] using Steps.rests hact
    | true => exact .of_act (a := .stop) (by simp [act?, htimedOut]) (by simp [step, htimedOut])
  | join =>
    cases hstage : p.stage with
    | waiting =>
      cases hresult : p.system.result? 0 with
      | none => simpa [step, hstage, hresult] using Steps.rests (m := .join) rfl
      | some r => simpa [step, hstage, hresult] using Steps.joins hstage hresult
    | _ => simpa [step, hstage] using Steps.rests (m := .join) rfl
  | conclude =>
    cases hstage : p.stage with
    | joined r => simpa [step, hstage] using Steps.concludes hstage
    | _ => simpa [step, hstage] using Steps.rests (m := .conclude) rfl

/-! ## The schedule of the engine -/

/-- The acts of the engine that moves are. -/
def acts (p : Process) : List Move → List Act
  | [] => []
  | m :: moves => (p.act? m).toList ++ (p.step m).1.acts moves

theorem run_append (p : Process) (xs ys : List Move) :
    p.run (xs ++ ys) = (((p.run xs).1.run ys).1, (p.run xs).2 ++ ((p.run xs).1.run ys).2) := by
  induction xs generalizing p with
  | nil => rfl
  | cons m xs ih => simp [run, ih]

theorem acts_append (p : Process) (xs ys : List Move) :
    p.acts (xs ++ ys) = p.acts xs ++ (p.run xs).1.acts ys := by
  induction xs generalizing p with
  | nil => rfl
  | cons m xs ih => simp [acts, run, ih]

theorem system_step (p : Process) (m : Move) :
    (p.step m).1.system = p.system.after (p.act? m).toList := by
  have hsteps := p.steps m
  generalize p.step m = next at hsteps
  obtain ⟨p', written⟩ := next
  cases hsteps with
  | acts act => simp [act]
  | rests act => simp [act]
  | notes | expires | joins | concludes => rfl

theorem system_run (p : Process) (moves : List Move) :
    (p.run moves).1.system = p.system.after (p.acts moves) := by
  induction moves generalizing p with
  | nil => rfl
  | cons m moves ih =>
    rw [acts, System.after_append, ← system_step]
    exact ih (p.step m).1

/-- A move that is an act of the engine shows nothing but what the worker does. -/
theorem events_of_act? {p : Process} {m : Move} {a : Act} (hact : p.act? m = some a)
    (hne : a ≠ .advance 0) (s : System) : (s.act a).2 = [] := by
  cases m with
  | work =>
    cases hact
    unfold System.nextAct at hne ⊢
    split
    · rfl
    · next hroom => exact absurd (if_neg hroom) hne
  | refuse | input | interrupt => cases hact; rfl
  | stopForTimeout =>
    simp only [act?] at hact
    split at hact <;> cases hact
    rfl
  | note | expire | join | conclude => cases hact

/-- The bytes of standard input that moves pass on are those that their schedule pushes. -/
theorem pushed_acts (p : Process) (moves : List Move) :
    pushed (p.acts moves) = moves.flatMap Move.passed := by
  induction moves generalizing p with
  | nil => rfl
  | cons m moves ih =>
    rw [acts, pushed_append, ih, List.flatMap_cons]
    congr 1
    cases m with
    | work =>
      simp only [act?, System.nextAct]
      split <;> rfl
    | stopForTimeout =>
      simp only [act?]
      split <;> rfl
    | input bytes => exact List.append_nil bytes
    | refuse | note | interrupt | expire | join | conclude => rfl

/-! ## What is written about the run -/

theorem stdoutOf_emissions (events : List Event) :
    stdoutOf (events.flatMap emissions) = events.filterMap Event.printed? := by
  induction events with
  | nil => rfl
  | cons event events ih =>
    rw [List.flatMap_cons, stdoutOf_append, ih]
    cases event <;> rfl

/-- A move writes to standard output what the operator prints that it completes. -/
theorem stdoutOf_act {p : Process} {m : Move} {a : Act} {program : Program} {origin : Machine}
    {stream : List UInt8} {done : List Completion}
    (hpath : p.system.OnPath program origin 0 stream done) (hact : p.act? m = some a) :
    stdoutOf ((p.system.act a).2.flatMap emissions) =
      printedBytes program (p.system.completion? 0 a).toList := by
  rw [stdoutOf_emissions]
  by_cases hadvance : a = .advance 0
  · subst hadvance
    exact hpath.printed_act
  · rw [events_of_act? hact hadvance, System.completion?, if_neg hadvance]
    rfl

/-! ## The start of an invocation -/

/-- The invocation has just taken a fresh engine for the run of its text, and nothing more. -/
structure Started (p : Process) : Prop where
  system : ∃ fresh, System.new p.settings.memorySize = .ok fresh ∧
    p.system = fresh.after [.call .spawn (.ofString p.source), .advance 0, .advance 0, .advance 0]
  waiting : p.stage = .waiting
  inTime : p.timedOut = false

theorem started_of_start {name source : String} {terminal : Bool} {settings : Settings}
    {p : Process} (h : start name terminal source settings = .ok p) :
    p.source = source ∧ p.settings = settings ∧ p.Started := by
  unfold start at h
  split at h
  · cases h
  · next fresh hfresh =>
    cases h
    exact ⟨rfl, rfl, ⟨fresh, hfresh, rfl⟩, rfl, rfl⟩

theorem start_eq_error_iff {name source : String} {terminal : Bool} {settings : Settings}
    {text : String} : start name terminal source settings = .error text ↔
      settings.memorySize = 0 ∧
        text = Report.ofError terminal (some name) source.toList (.noCells 0) := by
  unfold start System.new Engine.new
  by_cases hmemory : settings.memorySize = 0 <;> simp [hmemory, eq_comm]

namespace Started

variable {p : Process}

/-- The call of the run has emptied the queue, and has then set the running flag. -/
theorem exists_begun (h : p.Started) : ∃ s : System,
    s.Begun p.settings.memorySize (.ofString p.source) 0 ∧ p.system = s.after [.advance 0] := by
  obtain ⟨fresh, hfresh, hsystem⟩ := h.system
  have hcalled : (fresh.after [.call .spawn (.ofString p.source), .advance 0]).calls[0]? =
      some ⟨.spawn, .ofString p.source, .taken⟩ := by
    obtain ⟨-, rfl⟩ := System.new_eq_ok hfresh
    rfl
  exact ⟨_, ⟨fresh, _, _, hfresh, hcalled, rfl, rfl, rfl⟩, hsystem⟩

/-- The call of the run when its engine is taken: nothing is pushed or completed yet. -/
theorem onPath (h : p.Started) : ∃ origin, Machine.start p.settings.memorySize = .ok origin ∧
    p.system.OnPath (.ofString p.source) origin 0 [] [] := by
  obtain ⟨s, begun, hsystem⟩ := h.exists_begun
  rw [hsystem]
  obtain ⟨origin, hstart, hpath⟩ := begun.onPath
  have hnone : s.completion? 0 (.advance 0) = none := by
    simp [System.completion?, begun.stage?_eq, Stage.completion?]
  have hlaunched := hpath.act (.advance 0)
  rw [hnone] at hlaunched
  exact ⟨origin, hstart, hlaunched⟩

/-- The run stays on the path of its program's machine, with the bytes passed on as its input. -/
theorem onPath_run (h : p.Started) (moves : List Move) :
    ∃ origin, Machine.start p.settings.memorySize = .ok origin ∧
      (p.run moves).1.system.OnPath (.ofString p.source) origin 0 (pushed (p.acts moves))
        (p.system.completions 0 (p.acts moves)) := by
  obtain ⟨origin, hstart, hpath⟩ := h.onPath
  refine ⟨origin, hstart, ?_⟩
  rw [system_run]
  exact hpath.after (p.acts moves)

end Started

end Process

end Brainfuck.CommandLine
