import Brainfuck.CommandLine.Invocation
import Brainfuck.Proofs.Moves

/-!
# How an invocation begins

The text and the settings of a run follow from what the invocation finds. An invocation that asks for
one program begins with the run of its text, and is over at once only if there is no such text
(`Surroundings.opening_of_request`) or the engine is to have no cells
(`Opening.ofSource_cases`).
-/

namespace Brainfuck.CommandLine

/-- An invocation that has its text is over if the engine is to have no cells, and has otherwise taken
its engine for the run. -/
theorem Opening.ofSource_cases (name : String) (terminal : Bool) (source : String)
    (request : RunRequest) (path : Option String) (file : Option ByteArray)
    (getVar : String → Option String) :
    let settings := (resolveSettings request path file getVar).1
    (settings.memorySize = 0 ∧ ∃ written,
      ofSource name terminal source request path file getVar = .over 1 written ∧
        stdoutOf written = []) ∨
    (settings.memorySize ≠ 0 ∧ ∃ p said,
      ofSource name terminal source request path file getVar = .running p said ∧
        stdoutOf said = [] ∧ p.source = source ∧ p.settings = settings ∧ p.Started) := by
  have hsilent : ∀ log : List LogRecord, stdoutOf (log.map Emission.log) = [] := by
    intro log
    induction log with
    | nil => rfl
    | cons record log ih => exact ih
  unfold ofSource
  generalize resolveSettings request path file getVar = resolved
  obtain ⟨settings, log⟩ := resolved
  dsimp only
  cases hstart : Process.start name terminal source settings with
  | error text =>
    obtain ⟨hmemory, -⟩ := Process.start_eq_error_iff.mp hstart
    refine .inl ⟨hmemory, _, rfl, ?_⟩
    rw [stdoutOf_append, hsilent]
    rfl
  | ok p =>
    obtain ⟨hsource, hsettings, hstarted⟩ := Process.started_of_start hstart
    refine .inr ⟨fun hmemory => ?_, p, _, rfl, hsilent log, hsource, hsettings, hstarted⟩
    rw [Process.start_eq_error_iff.mpr ⟨hmemory, rfl⟩] at hstart
    cases hstart

namespace Surroundings

/-- The settings of the run that is asked for. -/
def settings (s : Surroundings) (request : RunRequest) : Settings :=
  (resolveSettings request s.settingsPath s.settingsFile s.getVar).1

/-- The text of the program that is asked for. -/
def programText (s : Surroundings) (request : RunRequest) : Except FileError String :=
  match request.file with
  | some path => s.files.readText path
  | none => .ok (String.join request.code)

variable {s : Surroundings} {request : RunRequest}

/-- An invocation that asks for the program in a file or for the one in its arguments, but not for
both, begins with the text of that program. -/
theorem opening_of_request (hparse : Arguments.parse s.arguments = some ⟨false, some request⟩)
    (hhelp : request.help = false) (hone : request.file = none ↔ request.code ≠ []) :
    (∃ e, s.programText request = .error e ∧
      s.opening = .over 1 [.stderr (Plan.unreadable s.name e)]) ∨
    ∃ source, s.programText request = .ok source ∧ s.opening = s.openSource source request := by
  have hplan : s.plan = Plan.ofRunArguments s.name request := by
    simp only [plan, Plan.ofArguments, hparse]
  rw [opening, hplan, programText]
  cases hfile : request.file with
  | none =>
    have hcode := hone.mp hfile
    cases hparts : request.code with
    | nil => exact absurd hparts hcode
    | cons part parts =>
      refine .inr ⟨_, rfl, ?_⟩
      simp [Plan.ofRunArguments, hhelp, hfile, hparts]
  | some path =>
    have hcode : request.code = [] := by
      cases hparts : request.code with
      | nil => rfl
      | cons part parts =>
        rw [hone.mpr (by simp [hparts])] at hfile
        cases hfile
    cases hread : s.files.readText path with
    | error e => exact .inl ⟨e, hread, by simp [Plan.ofRunArguments, hhelp, hfile, hcode, hread]⟩
    | ok source =>
      exact .inr ⟨source, hread, by simp [Plan.ofRunArguments, hhelp, hfile, hcode, hread]⟩

theorem openSource_cases (s : Surroundings) (source : String) (request : RunRequest) :
    ((s.settings request).memorySize = 0 ∧
      ∃ written, s.openSource source request = .over 1 written ∧ stdoutOf written = []) ∨
    ((s.settings request).memorySize ≠ 0 ∧ ∃ p said,
      s.openSource source request = .running p said ∧ stdoutOf said = [] ∧ p.source = source ∧
        p.settings = s.settings request ∧ p.Started) :=
  Opening.ofSource_cases s.name false source request s.settingsPath s.settingsFile s.getVar

end Surroundings

end Brainfuck.CommandLine
