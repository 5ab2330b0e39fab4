import Brainfuck.Proofs.Returning
import Brainfuck.Proofs.Scans

/-!
# Which faults a run returns

`Machine.Fails` lists the states of a machine in which its operator cannot be carried out, each with
its fault: a move at an end of the tape, and a bracket that has to be crossed while its partner is
missing (`Program.Unclosed`, `Program.Unopened`). Brackets are looked for only when a loop is skipped
or repeated, so the same text can fail with one input and not with another.

A step of the sequential machine fails exactly in these states (`Sequential.step_eq_failed_iff`), and
what ends the machine is what a run returns (`Begun.returns_iff`); together they say that the faults
of a run are exact (`faults_are_exact`).
-/

namespace Brainfuck

/-- The operator at which the machine stands cannot be carried out on a tape of `memory` cells, and
this is the fault: a move would leave the tape at one of its ends, or a loop is to be crossed of
which the program lacks the other bracket. -/
inductive Machine.Fails (memory : Nat) (p : Program) (m : Machine) : Fault → Prop where
  | left (op : p.op? m.ip = some .left) (edge : m.tape.pointer = 0) :
      Fails memory p m (.offTape m.ip 0 '<')
  | right (op : p.op? m.ip = some .right) (edge : m.tape.pointer = memory - 1) :
      Fails memory p m (.offTape m.ip (memory - 1) '>')
  | opening (op : p.op? m.ip = some .openLoop) (zero : m.tape.current? = some 0)
      (unclosed : p.Unclosed m.ip) : Fails memory p m (.unmatched m.ip .opening)
  | closing {cell : UInt8} (op : p.op? m.ip = some .closeLoop)
      (current : m.tape.current? = some cell) (nonzero : cell ≠ 0) (unopened : p.Unopened m.ip) :
      Fails memory p m (.unmatched m.ip .closing)

namespace Machine

variable {memory : Nat} {p : Program} {m : Machine} {op : Op} {cell : UInt8} {cause : Fault}
  {failure : Failure}

/-- An operator that fails does so for one of these causes. -/
theorem fails_of_perform (hm : m.tape.InBounds) (hsize : m.tape.size = memory)
    (hop : p.op? m.ip = some op) (hcell : m.tape.current? = some cell)
    (h : m.perform p cell op = .error failure) :
    ∃ cause, failure = .fault cause ∧ m.Fails memory p cause := by
  have hip := Nat.le_of_lt (Program.lt_size_of_op?_eq_some hop)
  obtain ⟨tape, output, ip⟩ := m
  cases op with
  | right =>
    simp only [perform, Tape.moveRight] at h
    split at h
    · cases h
    · next hmove =>
      split at hmove
      · cases hmove
      · next hedge =>
        cases hmove
        cases h
        have hpointer : tape.pointer = memory - 1 := by
          have hlt : tape.pointer < tape.cells.size := hm
          have hcells : tape.cells.size = memory := hsize
          omega
        rw [hpointer]
        exact ⟨_, rfl, .right hop hpointer⟩
  | left =>
    simp only [perform, Tape.moveLeft] at h
    split at h
    · cases h
    · next hmove =>
      split at hmove
      · cases hmove
      · next hedge =>
        cases hmove
        cases h
        have hpointer : tape.pointer = 0 := Nat.eq_zero_of_not_pos hedge
        rw [hpointer]
        exact ⟨_, rfl, .left hop hpointer⟩
  | openLoop =>
    simp only [perform] at h
    split at h
    · next hzero =>
      split at h
      · cases h
      · next hexit =>
        cases h
        obtain ⟨rfl, hunclosed⟩ := Program.loopExit_eq_error_iff.mp hexit
        exact ⟨_, rfl, .opening hop (hzero ▸ hcell) hunclosed⟩
    · cases h
  | closeLoop =>
    simp only [perform] at h
    split at h
    · cases h
    · next hnonzero =>
      split at h
      · cases h
      · next hentry =>
        cases h
        obtain ⟨rfl, hunopened⟩ := (Program.loopEntry_eq_error_iff hip).mp hentry
        exact ⟨_, rfl, .closing hop hcell hnonzero hunopened⟩
  | increment | decrement | print | read => cases h

/-- For each of the causes the operator fails. -/
theorem Fails.exists_perform (h : m.Fails memory p cause) (hm : m.tape.InBounds)
    (hsize : m.tape.size = memory) :
    ∃ op cell, p.op? m.ip = some op ∧ op ≠ .read ∧ m.tape.current? = some cell ∧
      m.perform p cell op = .error (.fault cause) := by
  obtain ⟨cell, hcell⟩ := hm.exists_current?
  cases h with
  | left hop hedge =>
    refine ⟨.left, cell, hop, by decide, hcell, ?_⟩
    obtain ⟨tape, output, ip⟩ := m
    obtain ⟨cells, pointer⟩ := tape
    obtain rfl : pointer = 0 := hedge
    rfl
  | right hop hedge =>
    refine ⟨.right, cell, hop, by decide, hcell, ?_⟩
    obtain ⟨tape, output, ip⟩ := m
    obtain ⟨cells, pointer⟩ := tape
    obtain rfl : pointer = memory - 1 := hedge
    have hend : ¬ memory - 1 + 1 < cells.size := by
      have hcells : cells.size = memory := hsize
      omega
    simp [perform, Tape.moveRight, hend]
  | opening hop hzero hunclosed =>
    refine ⟨.openLoop, 0, hop, by decide, hzero, ?_⟩
    obtain ⟨tape, output, ip⟩ := m
    have hexit := Program.loopExit_eq_error_iff.mpr ⟨rfl, hunclosed⟩
    simp [perform, hexit]
  | @closing cell hop hcurrent hnonzero hunopened =>
    refine ⟨.closeLoop, cell, hop, by decide, hcurrent, ?_⟩
    obtain ⟨tape, output, ip⟩ := m
    have hip := Nat.le_of_lt (Program.lt_size_of_op?_eq_some hop)
    have hentry := (Program.loopEntry_eq_error_iff hip).mpr ⟨rfl, hunopened⟩
    simp [perform, hnonzero, hentry]

end Machine

/-- The fault is about this operator at this position: a move off the tape, or a bracket without its
partner. -/
inductive Fault.Blames : Fault → Nat → Op → Prop where
  | move {ip pointer : Nat} {op : Op} (move : op = .left ∨ op = .right) :
      Blames (.offTape ip pointer op.toChar) ip op
  | opening {ip : Nat} : Blames (.unmatched ip .opening) ip .openLoop
  | closing {ip : Nat} : Blames (.unmatched ip .closing) ip .closeLoop

/-- The fault is about the operator at the machine's position. -/
theorem Machine.Fails.blames {memory : Nat} {p : Program} {m : Machine} {cause : Fault}
    (h : m.Fails memory p cause) : ∃ op, p.op? m.ip = some op ∧ cause.Blames m.ip op := by
  cases h with
  | left op => exact ⟨.left, op, .move (.inl rfl)⟩
  | right op => exact ⟨.right, op, .move (.inr rfl)⟩
  | opening op => exact ⟨.openLoop, op, .opening⟩
  | closing op => exact ⟨.closeLoop, op, .closing⟩

theorem Sequential.step_eq_failed_iff {memory : Nat} {p : Program} {s : Sequential}
    {failure : Failure} (hs : s.machine.tape.InBounds) (hsize : s.machine.tape.size = memory) :
    s.step p = .failed failure ↔
      ∃ cause, failure = .fault cause ∧ s.machine.Fails memory p cause := by
  constructor
  · intro hfailed
    cases does_of_step_eq hfailed hs with
    | fails hop _ hcell hfailure => exact Machine.fails_of_perform hs hsize hop hcell hfailure
  · rintro ⟨cause, rfl, fails⟩
    obtain ⟨op, cell, hop, hread, hcell, hfailure⟩ := fails.exists_perform hs hsize
    exact Does.step_eq (.fails hop hread hcell hfailure) hs

/-- A worker ends its run with an outcome, or with a fault of the operator at which it stands. -/
theorem Worker.ended_cases {memory : Nat} {running : Bool} {queue queue' : ByteQueue} {w : Worker}
    {r : Result} {events : List Event} (hw : w.Sound) (hsize : w.machine.tape.size = memory)
    (h : w.advance running queue = ⟨.ended r, queue', events⟩) :
    r = .done (w.machine.outcome w.program) ∨
      ∃ cause, r = .failed cause ∧ w.machine.Fails memory w.program cause := by
  have effect := effect_of_eq hw h
  generalize w.completion? running queue = done at effect
  cases effect with
  | ends => exact .inl rfl
  | fails failed =>
    obtain ⟨cause, rfl, fails⟩ := (Sequential.step_eq_failed_iff hw.inBounds hsize).mp failed
    exact .inr ⟨cause, rfl, fails⟩

theorem Sequential.ends_failed_iff {p : Program} {s : Sequential} {cause : Fault} :
    Ends p s (.failed cause) ↔ s.step p = .failed (.fault cause) := by
  constructor
  · intro ends
    generalize hr : Result.failed cause = r at ends
    cases ends with
    | completed => cases hr
    | @failed failure failed =>
      cases failure <;> cases hr
      exact failed
  · exact Ends.failed

namespace System

variable {memory index distance : Nat} {program : Program} {origin : Machine}
  {stream : List UInt8} {done : List Completion} {t : Sequential} {s : System} {m : Machine}
  {r : Result} {sched : Nat → Act}

theorem Carries.machine?_eq (h : s.Carries program index t distance) :
    s.machine? index = some t.machine := by
  obtain ⟨c, w, hc, hstage, -, -, rfl, -⟩ := h.call
  rw [machine?, hc, Option.bind_some, Call.machine?, hstage]
  rfl

/-- The machine of a run that nobody has disturbed goes on, on the tape that it has started with. -/
theorem OnPath.carries_of_machine? (h : s.OnPath program origin index stream done)
    (hs : s.Undisturbed index) (hm : s.machine? index = some m) :
    (∃ distance, s.Carries program index ⟨m, s.engine.queue.bytes⟩ distance) ∧
      m.tape.size = origin.tape.size := by
  obtain ⟨c, hc, -⟩ := h.call
  rw [machine?, hc, Option.bind_some] at hm
  unfold Call.machine? at hm
  split at hm
  · next w hw =>
    cases hm
    have hstage := stage?_of_call hc
    rw [hw] at hstage
    obtain ⟨hprogram, hsound, n, path⟩ := h.follows hstage
    exact ⟨⟨_, hs _ hstage, c, w, hc, hw, hprogram, hsound, rfl, rfl⟩,
      path.size_eq (Machine.start_inBounds h.start)⟩
  · cases hm

/-- A call that goes on again and again and is not disturbed returns with a fault exactly if its
machine comes to a position at which the operator fails with that fault. -/
theorem Begun.returns_fault_iff (h : s.Begun memory program index)
    (fair : ∀ time, ∃ later, time ≤ later ∧ sched later = .advance index)
    (undisturbed : ∀ time, ¬ (sched time).Disturbs index) (cause : Fault) :
    (∃ time, (s.after (upTo sched time)).result? index = some (.failed cause)) ↔
      ∃ time m, (s.after (upTo sched time)).machine? index = some m ∧
        m.Fails memory program cause := by
  rw [h.returns_iff fair undisturbed]
  obtain ⟨origin, hstart, hpath⟩ := h.onPath
  have hlater : ∀ time, (s.after (upTo sched time)).Undisturbed index := fun time =>
    hpath.undisturbed_after h.undisturbed (not_disturbs_upTo undisturbed time)
  refine exists_congr fun time => ?_
  constructor
  · rintro ⟨t, distance, hcarries, hends⟩
    have hm := hcarries.machine?_eq
    obtain ⟨-, hsize⟩ := (hpath.after (upTo sched time)).carries_of_machine? (hlater time) hm
    obtain ⟨cause', hcause, fails⟩ := (Sequential.step_eq_failed_iff hcarries.inBounds
      (hsize.trans (Machine.start_size hstart))).mp (Sequential.ends_failed_iff.mp hends)
    cases hcause
    exact ⟨t.machine, hm, fails⟩
  · rintro ⟨m, hm, fails⟩
    obtain ⟨⟨distance, hcarries⟩, hsize⟩ :=
      (hpath.after (upTo sched time)).carries_of_machine? (hlater time) hm
    refine ⟨_, distance, hcarries, Sequential.ends_failed_iff.mpr ?_⟩
    exact (Sequential.step_eq_failed_iff hcarries.inBounds
      (hsize.trans (Machine.start_size hstart))).mpr ⟨cause, rfl, fails⟩

/-- The faults of a run are exact. On an endless schedule on which a call goes on again and again, on
which anybody may push bytes and call the engine, and nobody asks for a stop, refuses the call a
thread or breaks it off, the call returns with a fault exactly if its machine comes to a position at
which the operator fails with that fault: a move at an end of the tape, or a bracket that has to be
crossed to a partner that the text lacks. A run that returns has come to the end of its program or
has such a fault, which is about an operator that stands where it says. If the brackets of the text
match, none is reported. -/
theorem faults_are_exact (h : s.Begun memory program index)
    (fair : ∀ time, ∃ later, time ≤ later ∧ sched later = .advance index)
    (undisturbed : ∀ time, ¬ (sched time).Disturbs index) :
    (∀ cause, (∃ time, (s.after (upTo sched time)).result? index = some (.failed cause)) ↔
      ∃ time m, (s.after (upTo sched time)).machine? index = some m ∧
        m.Fails memory program cause) ∧
    (∀ time r, (s.after (upTo sched time)).result? index = some r →
      (∃ o, r = .done o ∧ o.termination = .completed) ∨
      ∃ cause ip op, r = .failed cause ∧ cause.Blames ip op ∧ ip < program.size ∧
        program.op? ip = some op) ∧
    ∀ source, Balanced source → program = Program.ofChars source → ∀ time ip bracket,
      (s.after (upTo sched time)).result? index ≠ some (.failed (.unmatched ip bracket)) := by
  have exact := h.returns_fault_iff fair undisturbed
  refine ⟨exact, fun time r hr => ?_, ?_⟩
  · obtain ⟨origin, -, hpath⟩ := h.onPath
    have hreturned := (hpath.after (upTo sched time)).stage_of_result hr
    have hown : r.IsOwn :=
      hpath.undisturbed_after h.undisturbed (not_disturbs_upTo undisturbed time) _ hreturned
    cases r with
    | done o => exact .inl ⟨o, rfl, hown⟩
    | failed cause =>
      obtain ⟨time', m, -, fails⟩ := (exact cause).mp ⟨time, hr⟩
      obtain ⟨op, hop, hblames⟩ := fails.blames
      exact .inr ⟨cause, m.ip, op, rfl, hblames, Program.lt_size_of_op?_eq_some hop, hop⟩
    | crashed => exact hown.elim
  · rintro source hbalanced rfl time ip bracket hr
    obtain ⟨time', m, -, fails⟩ := (exact _).mp ⟨time, hr⟩
    cases fails with
    | opening op _ unclosed => exact hbalanced.not_unclosed op unclosed
    | closing op _ _ unopened => exact hbalanced.not_unopened op unopened

/-- A loop that is skipped and not closed, though a loop inside it is. -/
theorem faults_are_exact_of_open_loop :
    let program : Program := .ofChars ['[', '[', ']']
    let s : System := ⟨⟨1, .empty, false, true⟩, #[⟨.run, program, .cleared⟩]⟩
    let sched : Nat → Act := fun time => if time = 2 then .push [7] else .advance 0
    s.Begun 1 program 0 ∧ (∀ time, ∃ later, time ≤ later ∧ sched later = .advance 0) ∧
      (∀ time, ¬ (sched time).Disturbs 0) ∧
      (s.after (upTo sched 6)).result? 0 = some (.failed (.unmatched 0 .opening)) ∧
      ∃ time m, (s.after (upTo sched time)).machine? 0 = some m ∧
        m.Fails 1 program (.unmatched 0 .opening) := by
  intro program s sched
  have begun : s.Begun 1 program 0 :=
    ⟨_, [.call .run program, .advance 0], _, rfl, rfl, rfl, rfl, rfl⟩
  have fair : ∀ time, ∃ later, time ≤ later ∧ sched later = .advance 0 :=
    fun time => ⟨time + 3, by omega, if_neg (by omega)⟩
  have undisturbed : ∀ time, ¬ (sched time).Disturbs 0 := by
    intro time
    have hsched : sched time = .advance 0 ∨ ∃ bytes, sched time = .push bytes := by
      by_cases htime : time = 2
      · exact .inr ⟨[7], if_pos htime⟩
      · exact .inl (if_neg htime)
    exact Act.not_disturbs hsched
  have hr : (s.after (upTo sched 6)).result? 0 = some (.failed (.unmatched 0 .opening)) := by
    decide
  exact ⟨begun, fair, undisturbed, hr, ((faults_are_exact begun fair undisturbed).1 _).mp ⟨6, hr⟩⟩

end System

end Brainfuck
