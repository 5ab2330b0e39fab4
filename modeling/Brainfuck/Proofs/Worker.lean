import Brainfuck.Engine.Worker
import Brainfuck.Proofs.Sequential

/-!
# Pieces of work and steps

A worker and the queue it pops from are a sequential machine whose input is what waits in the
queue. `Worker.advance_effect` says what one piece of work is for that machine: it rests, or takes
exactly one step, or comes to the end of the run. A resting worker comes nearer to its next step,
as `Phase.distance` counts, unless it is at a `,` and nothing waits.
-/

namespace Brainfuck

/-- How many pieces of work lie before the next step, if a `,` finds its byte. -/
def Phase.distance : Phase → Nat
  | .printing => 3
  | .ready => 2
  | .announcing => 2
  | .fetching => 1
  | .awaiting => 1

namespace Worker

/-- The worker is inside a `,`. -/
def Fetches (w : Worker) : Prop :=
  w.phase = .fetching ∨ w.phase = .announcing ∨ w.phase = .awaiting

/-- The pointer is on the tape, and a worker inside a `,` stands at one. -/
structure Sound (w : Worker) : Prop where
  inBounds : w.machine.tape.InBounds
  atRead : w.Fetches → w.program.op? w.machine.ip = some .read

/-- The sequential machine that a worker is when these bytes wait. -/
def sequential (w : Worker) (queue : ByteQueue) : Sequential :=
  ⟨w.machine, queue.bytes⟩

@[simp] theorem sequential_machine (w : Worker) (queue : ByteQueue) :
    (w.sequential queue).machine = w.machine := rfl

@[simp] theorem sequential_input (w : Worker) (queue : ByteQueue) :
    (w.sequential queue).input = queue.bytes := rfl

/-- The operator that a piece of work completes, if it does. A `,` is complete once it has its
byte, any other operator at the head of its cycle. -/
def completion? (running : Bool) (queue : ByteQueue) (w : Worker) : Option Completion :=
  match w.phase, (w.advance running queue).progress with
  | .ready, .working w' =>
    match w.program.op? w.machine.ip with
    | none | some .read => none
    | some _ => some ⟨w.machine.ip, none, w'.machine⟩
  | .fetching, .working w' | .awaiting, .working w' =>
    queue.bytes.head?.map fun value => ⟨w.machine.ip, some value, w'.machine⟩
  | _, _ => none

/-- The bytes that a piece of work takes out of the queue. -/
def popped (running : Bool) (queue : ByteQueue) (w : Worker) : List UInt8 :=
  queue.bytes.take (queue.bytes.length - (w.advance running queue).queue.bytes.length)

/-- What a piece of work is for the sequential machine. It takes a step, or the operator fails in it
as it does in the worker; otherwise machine and queue stay as they are. The worker ends a run also
where the machine would go on, but only at a stop. -/
inductive Effect (running : Bool) (queue : ByteQueue) (w : Worker) :
    Advance → Option Completion → Prop where
  | rests {w' : Worker} {events : List Event} (program : w'.program = w.program)
      (machine : w'.machine = w.machine) (sound : w'.Sound)
      (nearer : (w.sequential queue).step w.program = .starved ∨
        w'.phase.distance < w.phase.distance) :
      Effect running queue w ⟨.working w', queue, events⟩ none
  | steps {w' : Worker} {queue' : ByteQueue} {events : List Event}
      (program : w'.program = w.program) (sound : w'.Sound)
      (next : (w.sequential queue).step w.program = .next (w'.sequential queue')) :
      Effect running queue w ⟨.working w', queue', events⟩
        (Sequential.completion? w.program (w.sequential queue) (w'.sequential queue'))
  | ends {events : List Event} (finish : running = true → w.program.size ≤ w.machine.ip) :
      Effect running queue w ⟨.ended (.done (w.machine.outcome w.program)), queue, events⟩ none
  | fails {failure : Failure} {events : List Event}
      (failed : (w.sequential queue).step w.program = .failed failure) :
      Effect running queue w ⟨.ended (.ofFailure failure), queue, events⟩ none

variable {running : Bool} {queue : ByteQueue} {w : Worker}

/-- At the head of a cycle and in the sink a worker is inside no `,`. -/
theorem not_fetches (h : w.phase = .ready ∨ w.phase = .printing) : ¬ w.Fetches := by
  rintro (hf | hf | hf) <;> rcases h with h | h <;> cases h.symm.trans hf

theorem sound_of_ready {program : Program} {machine : Machine} {stalled : Bool}
    (h : machine.tape.InBounds) : Sound ⟨program, machine, stalled, .ready⟩ :=
  ⟨h, fun hf => absurd hf (not_fetches (.inl rfl))⟩

theorem launch_eq_ok {program : Program} {memory : Nat} (h : launch program memory = .ok w) :
    ∃ machine, Machine.start memory = .ok machine ∧ w = ⟨program, machine, false, .ready⟩ := by
  unfold launch at h
  split at h
  · next machine hmachine => cases h; exact ⟨machine, hmachine, rfl⟩
  · cases h

/-- At the head of a cycle an operator other than `,` does its work; after a `.` the worker is in
the sink. -/
theorem advance_performs {program : Program} {machine machine' : Machine} {op : Op} {cell : UInt8}
    (stalled : Bool) (queue : ByteQueue) (hop : program.op? machine.ip = some op)
    (hread : op ≠ .read) (hcell : machine.tape.current? = some cell)
    (hmachine : machine.perform program cell op = .ok machine') :
    ∃ phase events, (phase = .ready ∨ phase = .printing) ∧
      advance true queue ⟨program, machine, stalled, .ready⟩ =
        ⟨.working ⟨program, machine', stalled, phase⟩, queue, events⟩ := by
  have hip := Program.lt_size_of_op?_eq_some hop
  by_cases hprint : op = .print
  · subst hprint
    have hm : machine' = machine.print cell := (Except.ok.inj hmachine).symm
    subst hm
    refine ⟨.printing, [.step machine.ip .print machine.tape.pointer cell,
      .printed cell (machine.print cell).output], .inr rfl, ?_⟩
    simp [advance, cycle, hip, hop, hcell]
  · refine ⟨.ready, [.step machine.ip op machine.tape.pointer cell], .inl rfl, ?_⟩
    cases op <;> simp_all [advance, cycle]

theorem advance_fails {program : Program} {machine : Machine} {op : Op} {cell : UInt8}
    {failure : Failure} (stalled : Bool) (queue : ByteQueue)
    (hop : program.op? machine.ip = some op) (hread : op ≠ .read)
    (hcell : machine.tape.current? = some cell)
    (hfailure : machine.perform program cell op = .error failure) :
    ∃ events, advance true queue ⟨program, machine, stalled, .ready⟩ =
      ⟨.ended (.ofFailure failure), queue, events⟩ := by
  have hip := Program.lt_size_of_op?_eq_some hop
  have hprint : op ≠ .print := by
    rintro rfl
    cases hfailure
  refine ⟨[.step machine.ip op machine.tape.pointer cell], ?_⟩
  cases op <;> simp_all [advance, cycle]

/-- What others see of a cycle that reaches an operator. -/
theorem events_of_op? {program : Program} {machine : Machine} {op : Op} {cell : UInt8}
    (stalled : Bool) (queue : ByteQueue) (hop : program.op? machine.ip = some op)
    (hcell : machine.tape.current? = some cell) :
    (advance true queue ⟨program, machine, stalled, .ready⟩).events =
      .step machine.ip op machine.tape.pointer cell ::
        if op = .print then [.printed cell (machine.output.push cell)] else [] := by
  have hip := Program.lt_size_of_op?_eq_some hop
  cases op <;> simp [advance, cycle, hip, hop, hcell, Machine.print] <;> split <;> rfl

/-- The head of a cycle. -/
theorem cycle_effect {program : Program} {machine : Machine} {stalled : Bool}
    (h : machine.tape.InBounds) :
    Effect running queue ⟨program, machine, stalled, .ready⟩
      (advance running queue ⟨program, machine, stalled, .ready⟩)
      (completion? running queue ⟨program, machine, stalled, .ready⟩) := by
  by_cases hgo : machine.ip < program.size ∧ running = true
  · obtain ⟨hip, rfl⟩ := hgo
    obtain ⟨cell, hcell⟩ := h.exists_current?
    -- the cases are those of the sequential step; only for a `,` the worker does less at once
    have does := Sequential.does_step program (s := ⟨machine, queue.bytes⟩) h
    generalize hnext : Sequential.step program ⟨machine, queue.bytes⟩ = next at does
    cases does with
    | completed hip' => exact absurd hip (Nat.not_lt.mpr hip')
    | comment _ hop =>
      have hadvance : advance true queue ⟨program, machine, stalled, .ready⟩ =
          ⟨.working ⟨program, machine.skip, stalled, .ready⟩, queue, []⟩ := by
        simp [advance, cycle, hip, hop]
      have hdone : completion? true queue ⟨program, machine, stalled, .ready⟩ =
          Sequential.completion? program ⟨machine, queue.bytes⟩ ⟨machine.skip, queue.bytes⟩ := by
        simp [completion?, hadvance, hop, Sequential.completion?]
      rw [hadvance, hdone]
      exact .steps rfl (sound_of_ready h) hnext
    | reads hop | starved hop =>
      have hadvance : advance true queue ⟨program, machine, stalled, .ready⟩ =
          ⟨.working ⟨program, machine, stalled, .fetching⟩, queue,
            [.step machine.ip .read machine.tape.pointer cell]⟩ := by
        simp [advance, cycle, hip, hop, hcell]
      have hdone : completion? true queue ⟨program, machine, stalled, .ready⟩ = none := by
        simp [completion?, hadvance, hop]
      rw [hadvance, hdone]
      exact .rests rfl rfl ⟨h, fun _ => hop⟩ (.inr (Nat.lt_succ_self 1))
    | @performs op _ machine' hop hread hcell' hmachine =>
      obtain ⟨phase, events, hphase, hadvance⟩ :=
        advance_performs stalled queue hop hread hcell' hmachine
      have hdone : completion? true queue ⟨program, machine, stalled, .ready⟩ =
          Sequential.completion? program ⟨machine, queue.bytes⟩ ⟨machine', queue.bytes⟩ := by
        simp only [completion?, hadvance, hop, Sequential.completion?, Option.map_some]
        cases op <;> first | rfl | exact absurd rfl hread
      rw [hadvance, hdone]
      exact .steps rfl
        ⟨Machine.perform_inBounds h hmachine, fun hf => absurd hf (not_fetches hphase)⟩ hnext
    | @fails op _ failure hop hread hcell' hfailure =>
      obtain ⟨events, hadvance⟩ :=
        advance_fails stalled queue hop hread hcell' hfailure
      have hdone : completion? true queue ⟨program, machine, stalled, .ready⟩ = none := by
        simp [completion?, hadvance]
      rw [hadvance, hdone]
      exact .fails hnext
  · have hadvance : advance running queue ⟨program, machine, stalled, .ready⟩ =
        ⟨.ended (.done (machine.outcome program)), queue,
          [.finished (machine.outcome program).termination machine.ip
            (machine.outcome program).output.size]⟩ := by
      simp [advance, cycle, hgo]
    have hdone : completion? running queue ⟨program, machine, stalled, .ready⟩ = none := by
      simp [completion?, hadvance]
    rw [hadvance, hdone]
    exact .ends fun hrunning => Nat.not_lt.mp fun hip => hgo ⟨hip, hrunning⟩

/-- A `,` that looks into the queue. -/
theorem fetch_effect {program : Program} {machine : Machine} {stalled : Bool} {phase : Phase}
    (h : machine.tape.InBounds) (hop : program.op? machine.ip = some .read)
    (hphase : phase = .fetching ∨ phase = .awaiting) :
    Effect running queue ⟨program, machine, stalled, phase⟩
      (advance running queue ⟨program, machine, stalled, phase⟩)
      (completion? running queue ⟨program, machine, stalled, phase⟩) := by
  obtain ⟨bytes⟩ := queue
  cases bytes with
  | nil =>
    have hstarved : Sequential.step program ⟨machine, []⟩ = .starved :=
      Sequential.Does.step_eq (.starved hop rfl) h
    rcases hphase with rfl | rfl
    · cases stalled with
      | false => exact .rests rfl rfl ⟨h, fun _ => hop⟩ (.inl hstarved)
      | true => exact .rests rfl rfl ⟨h, fun _ => hop⟩ (.inl hstarved)
    · exact .rests rfl rfl ⟨h, fun _ => hop⟩ (.inl hstarved)
  | cons value rest =>
    have hnext : Sequential.step program ⟨machine, value :: rest⟩ =
        .next ⟨machine.accept value, rest⟩ := Sequential.Does.step_eq (.reads hop rfl) h
    have hadvance : advance running ⟨value :: rest⟩ ⟨program, machine, stalled, phase⟩ =
        ⟨.working ⟨program, machine.accept value, false, .ready⟩, ⟨rest⟩, []⟩ := by
      rcases hphase with rfl | rfl <;> rfl
    have hdone : completion? running ⟨value :: rest⟩ ⟨program, machine, stalled, phase⟩ =
        Sequential.completion? program ⟨machine, value :: rest⟩ ⟨machine.accept value, rest⟩ := by
      rcases hphase with rfl | rfl <;>
        simp [completion?, hadvance, Sequential.completion?, hop]
    rw [hadvance, hdone]
    exact .steps rfl (sound_of_ready (Tape.InBounds.set h value)) hnext

theorem advance_effect (hw : w.Sound) :
    w.Effect running queue (w.advance running queue) (w.completion? running queue) := by
  obtain ⟨program, machine, stalled, phase⟩ := w
  cases phase with
  | ready => exact cycle_effect hw.inBounds
  | fetching => exact fetch_effect hw.inBounds (hw.atRead (.inl rfl)) (.inl rfl)
  | announcing =>
    exact .rests rfl rfl ⟨hw.inBounds, fun _ => hw.atRead (.inr (.inl rfl))⟩
      (.inr (Nat.lt_succ_self 1))
  | awaiting => exact fetch_effect hw.inBounds (hw.atRead (.inr (.inr rfl))) (.inr rfl)
  | printing =>
    exact .rests rfl rfl (sound_of_ready hw.inBounds) (.inr (Nat.lt_succ_self 2))

theorem effect_of_eq {moved : Advance} (hw : w.Sound) (h : w.advance running queue = moved) :
    w.Effect running queue moved (w.completion? running queue) :=
  h ▸ advance_effect hw

/-- An operator is completed only where one stands. -/
theorem op?_of_completion? {c : Completion} (hw : w.Sound)
    (h : w.completion? running queue = some c) :
    c.ip = w.machine.ip ∧ ∃ op, w.program.op? c.ip = some op := by
  have effect : w.Effect running queue _ _ := advance_effect hw
  rw [h] at effect
  generalize w.advance running queue = moved at effect
  generalize hdone : some c = done at effect
  cases effect with
  | steps =>
    obtain ⟨op, hop, rfl⟩ := Option.map_eq_some_iff.mp hdone.symm
    exact ⟨rfl, op, hop⟩
  | rests | ends | fails => cases hdone

/-- Of the operators exactly `,` takes a byte when it is completed. -/
theorem completion?_taken (hw : w.Sound) {c : Completion}
    (hc : w.completion? running queue = some c) :
    w.program.op? c.ip = some .read ↔ ∃ value, c.taken = some value := by
  have effect : w.Effect running queue _ _ := advance_effect hw
  rw [hc] at effect
  generalize w.advance running queue = moved at effect
  generalize hdone : some c = done at effect
  cases effect with
  | steps _ _ next => exact Sequential.completion?_taken next hw.inBounds hdone.symm
  | rests | ends | fails => cases hdone

/-- The bytes that leave the queue are those that operators take. -/
theorem popped_eq (hw : w.Sound) :
    w.popped running queue = takenBytes (w.completion? running queue).toList := by
  have effect : w.Effect running queue _ _ := advance_effect hw
  unfold popped
  generalize w.advance running queue = moved at effect ⊢
  generalize w.completion? running queue = done at effect ⊢
  cases effect with
  | rests => simp
  | ends => simp
  | fails => simp
  | @steps w' queue' _ _ _ next =>
    have hinput := (Sequential.Path.single next).input_eq hw.inBounds
    simp only [sequential_input] at hinput
    rw [hinput, List.length_append, Nat.add_sub_cancel]
    exact List.take_left

end Worker

end Brainfuck
