import Brainfuck.Proofs.Notes
import Brainfuck.Proofs.Sink
import Brainfuck.Proofs.Stalls

/-!
# The log of a run is faithful

What the log of a call tells holds under every schedule, up to any of its moments (`FaithfulLog`).
Its steps are the cycles at an operator, each of them agrees with the program and with the tape that
the steps before it and the bytes taken between them make of a blank one, the bytes of the steps at a
`.` are the output, and how it ends tells how the run has ended.

What concerns single acts is read off what one piece of work logs (`Worker.Logs`). That the notes
agree with each other is kept by every act, since a worker keeps its notes (`noted_of_call`). A
finish is logged with the outcome of a run and with nothing else (`stage?_of_finished`).
-/

namespace Brainfuck

namespace Event

/-- The position that a step of the log names. -/
def position? : Event → Option Nat
  | .step ip _ _ _ => some ip
  | _ => none

/-- The record that a `,` has found the queue empty. -/
def isStarved : Event → Bool
  | .starved _ => true
  | _ => false

/-- The record that a run has come to an end. -/
def isFinished : Event → Bool
  | .finished _ _ _ => true
  | _ => false

end Event

namespace Worker

variable {running : Bool} {queue queue' : ByteQueue} {w : Worker} {progress : Progress}
  {events : List Event} {done : Option Completion}

/-- A run that cannot even begin has no cells. -/
theorem launch_eq_error {program : Program} {memory : Nat} {cause : Fault}
    (h : launch program memory = .error cause) : cause = .noCells memory := by
  unfold launch at h
  split at h
  · cases h
  · next hstart =>
    cases h
    unfold Machine.start at hstart
    split at hstart
    · cases hstart
    · next hblank =>
      cases hstart
      unfold Tape.blank at hblank
      split at hblank <;> cases hblank
      rfl

theorem completion?_of_ended {r : Result}
    (moved : w.advance running queue = ⟨.ended r, queue', events⟩) :
    w.completion? running queue = none := by
  simp [completion?, moved]

/-- What follows the step of a cycle in the log is a call of the sink, or nothing. -/
theorem filterMap_step_printed {β : Type} (f : Event → Option β)
    (hf : ∀ cell total, f (.printed cell total) = none) (op : Op) (step : Event) (cell : UInt8)
    (total : Array UInt8) :
    (step :: if op = .print then [.printed cell total] else []).filterMap f =
      (f step).toList := by
  split <;> cases hstep : f step <;> simp [hstep, hf]

/-- A cycle is logged if and only if it is at an operator. -/
theorem Logs.positions (logs : w.Logs running queue progress events done) :
    events.filterMap Event.position? =
      (w.cycle? running).toList.filter fun ip => (w.program.op? ip).isSome := by
  cases logs with
  | passes cycle comment => simp [cycle, comment]
  | reaches cycle here => simp [cycle, here, Event.position?]
  | performs cycle here =>
    rw [filterMap_step_printed _ fun _ _ => rfl]
    simp [cycle, here, Event.position?]
  | fails cycle here => simp [cycle, here, Event.position?]
  | finishes cycle | starves cycle | takes cycle | rests cycle =>
    rw [cycle]
    rfl

/-- An empty queue is logged exactly when the hook is called. -/
theorem Logs.starved (logs : w.Logs running queue progress events done) :
    events.countP Event.isStarved = hookCalls events := by
  cases logs with
  | performs => split <;> rfl
  | passes | reaches | fails | finishes | starves | takes | rests => rfl

/-- Only the end of a run with an outcome is logged as one. -/
theorem Logs.finished (logs : w.Logs running queue progress events done) {event : Event}
    (hmem : event ∈ events) (hfinished : event.isFinished = true) :
    progress = .ended (.done (w.machine.outcome w.program)) := by
  cases logs with
  | finishes => rfl
  | performs =>
    split at hmem <;> simp at hmem
    · rcases hmem with rfl | rfl <;> cases hfinished
    · subst hmem
      cases hfinished
  | starves =>
    simp at hmem
    rcases hmem with rfl | rfl <;> cases hfinished
  | reaches | fails =>
    simp at hmem
    subst hmem
    cases hfinished
  | passes | takes | rests => cases hmem

end Worker

/-- A fault is about one operator at one position. -/
theorem Fault.Blames.unique {cause : Fault} {ip ip' : Nat} {op op' : Op} (h : cause.Blames ip op)
    (h' : cause.Blames ip' op') : ip = ip' ∧ op = op' := by
  generalize hcause : cause = cause' at h'
  cases h with
  | move =>
    cases h' with
    | move =>
      obtain ⟨rfl, -, hmark⟩ := Fault.offTape.inj hcause
      exact ⟨rfl, Op.toChar_injective hmark⟩
    | opening | closing => cases hcause
  | opening | closing =>
    cases h' <;> cases hcause
    exact ⟨rfl, rfl⟩

/-- The pointer that a fault reports is the pointer of the tape. -/
theorem Machine.Fails.pointer_eq {memory ip pointer : Nat} {mark : Char} {p : Program} {m : Machine}
    (h : m.Fails memory p (.offTape ip pointer mark)) : pointer = m.tape.pointer := by
  cases h with
  | left _ edge | right _ edge => exact edge.symm

/-! ## What is collected of a call -/

/-- The position at which a call begins a cycle with its next action. -/
def Stage.cycle? (running : Bool) : Stage → Option Nat
  | .active w => w.cycle? running
  | _ => none

/-- What the notes tell of a call at this stage: of its worker, and that it has none yet. -/
def Stage.Noted (memory : Nat) (notes : List Note) : Stage → Prop
  | .active w => KeepsNotes memory notes w
  | stage => stage.unstarted = true → notes = []

theorem Stage.noted_of_unstarted {memory : Nat} {notes : List Note} {stage : Stage}
    (h : stage.unstarted = true) : stage.Noted memory notes ↔ notes = [] := by
  cases stage with
  | active w => cases h
  | _ => exact ⟨fun hnoted => hnoted h, fun hnil _ => hnil⟩

/-- A call whose run is over can have noted anything. -/
theorem Stage.noted_closing (memory : Nat) (notes : List Note) (r : Result) (flags : Nat) :
    (Stage.closing r flags).Noted memory notes := by
  obtain _ | _ | _ := flags <;> exact nofun

/-- What an act adds to the notes of a call agrees with the notes before, and the notes tell of the
call after the act what they have told before. -/
theorem Stage.Shows.noted {memory : Nat} {program : Program} {e : Engine} {stage stage' : Stage}
    {events : List Event} {done : Option Completion} {notes : List Note}
    (h : Shows program e stage events done stage') (hmemory : e.memory = memory)
    (hwork : ∀ w, stage = .active w → w.program = program ∧ w.Sound)
    (faithful : Faithful memory program notes) (noted : stage.Noted memory notes) :
    Faithful memory program (notes ++ notesOf events done) ∧
      stage'.Noted memory (notes ++ notesOf events done) := by
  have nothing : notes ++ notesOf [] none = notes := List.append_nil notes
  cases h with
  | @works w w' _ events moved =>
    obtain ⟨rfl, hw⟩ := hwork w rfl
    obtain ⟨hfaithful, hkeeps⟩ :=
      KeepsNotes.logs noted faithful (Worker.logs_of_advance hw moved)
    exact ⟨hfaithful, hkeeps w' rfl⟩
  | @ends w r _ events moved =>
    obtain ⟨rfl, hw⟩ := hwork w rfl
    have logs := Worker.logs_of_advance hw moved
    rw [Worker.completion?_of_ended moved] at logs
    exact ⟨(KeepsNotes.logs noted faithful logs).1, noted_closing memory _ r 2⟩
  | breaks =>
    rw [nothing]
    exact ⟨faithful, noted_closing memory _ .crashed 2⟩
  | starts worker =>
    obtain rfl : notes = [] := noted rfl
    obtain ⟨machine, hmachine, rfl⟩ := Worker.launch_eq_ok worker
    refine ⟨faithful, replay_nil (hmemory ▸ hmachine), fun hlast => ?_⟩
    obtain ⟨front, pointer, cell, heq, -⟩ := hlast
    cases front <;> cases heq
  | @falters r =>
    rw [nothing]
    exact ⟨faithful, noted_closing memory _ r 2⟩
  | prepares before after =>
    rw [nothing]
    exact ⟨faithful, (noted_of_unstarted after).mpr ((noted_of_unstarted before).mp noted)⟩
  | @closes r flags =>
    rw [nothing]
    exact ⟨faithful, noted_closing memory _ r flags⟩
  | rests =>
    rw [nothing]
    exact ⟨faithful, noted⟩

/-- An act logs an empty queue exactly when it calls the hook. -/
theorem Stage.Shows.starved {program : Program} {e : Engine} {stage stage' : Stage}
    {events : List Event} {done : Option Completion} (h : Shows program e stage events done stage')
    (hsound : ∀ w, stage = .active w → w.Sound) :
    events.countP Event.isStarved = hookCalls events := by
  cases h with
  | works moved | ends moved => exact (Worker.logs_of_advance (hsound _ rfl) moved).starved
  | starts | breaks | falters | prepares | closes | rests => rfl

/-- After an act that logs a finish the run is over with an outcome. -/
theorem Stage.Shows.finished {program : Program} {e : Engine} {stage stage' : Stage}
    {events : List Event} {done : Option Completion} (h : Shows program e stage events done stage')
    (hsound : ∀ w, stage = .active w → w.Sound) {event : Event} (hmem : event ∈ events)
    (hfinished : event.isFinished = true) : ∃ o, stage' = .closing (.done o) 2 := by
  cases h with
  | works moved => cases (Worker.logs_of_advance (hsound _ rfl) moved).finished hmem hfinished
  | ends moved =>
    cases (Worker.logs_of_advance (hsound _ rfl) moved).finished hmem hfinished
    exact ⟨_, rfl⟩
  | starts =>
    obtain rfl := List.mem_singleton.mp hmem
    cases hfinished
  | breaks | falters | prepares | closes | rests => cases hmem

namespace System

variable {memory index : Nat} {fresh s : System} {acts : List Act} {c : Call}

/-- The position at which call number `index` begins a cycle with this act. -/
def cycle? (index : Nat) (s : System) (a : Act) : Option Nat :=
  if a = .advance index then (s.stage? index).bind (Stage.cycle? s.engine.running) else none

/-- The positions at which call number `index` begins a cycle under a schedule. -/
def cycles (index : Nat) (s : System) (acts : List Act) : List Nat :=
  s.collect (fun s a => (s.cycle? index a).toList) acts

theorem cycles_concat (index : Nat) (s : System) (acts : List Act) (a : Act) :
    s.cycles index (acts ++ [a]) =
      s.cycles index acts ++ ((s.after acts).cycle? index a).toList := by
  rw [cycles, collect_append, collect_cons, collect_nil, List.append_nil]
  rfl

/-- The notes of call number `index` under a schedule: the steps of its log and the bytes that it
takes, in the order of time. -/
def notes (index : Nat) (s : System) (acts : List Act) : List Note :=
  s.collect (fun s a => notesOf (s.shown index [a]) (s.completion? index a)) acts

theorem notes_concat (index : Nat) (s : System) (acts : List Act) (a : Act) :
    s.notes index (acts ++ [a]) = s.notes index acts ++
      notesOf ((s.after acts).shown index [a]) ((s.after acts).completion? index a) := by
  rw [notes, collect_append, collect_cons, collect_nil, List.append_nil]
  rfl

/-- The steps among the notes are those of the log. -/
theorem filterMap_event?_notes (index : Nat) (s : System) (acts : List Act) :
    (s.notes index acts).filterMap Note.event? = (s.shown index acts).filter Event.isStep := by
  induction acts using List.reverseRecOn with
  | nil => rfl
  | append_singleton acts a ih =>
    rw [notes_concat, List.filterMap_append, ih, filterMap_event?_notesOf, shown_append,
      List.filter_append]

/-- The bytes among the notes are those that the call takes. -/
theorem filterMap_byte?_notes (index : Nat) (s : System) (acts : List Act) :
    (s.notes index acts).filterMap Note.byte? = takenBytes (s.completions index acts) := by
  induction acts using List.reverseRecOn with
  | nil => rfl
  | append_singleton acts a ih =>
    rw [notes_concat, List.filterMap_append, ih, filterMap_byte?_notesOf, completions_append,
      completions_single, takenBytes_append]

/-- Every note of a call agrees with its program and with the notes before it. -/
theorem noted_of_call (h : System.new memory = .ok fresh)
    (hc : (fresh.after acts).calls[index]? = some c) :
    Faithful memory c.program (fresh.notes index acts) ∧
      c.stage.Noted memory (fresh.notes index acts) := by
  refine call_induction (motive := fun acts stage =>
    Faithful memory c.program (fresh.notes index acts) ∧ stage.Noted memory (fresh.notes index acts))
    h (fun {acts a} hbefore => ?_) (fun {acts a c' stage} hbefore hprogram shows hold => ?_)
    acts hc rfl
  · have hnil : fresh.notes index (acts ++ [a]) = [] := by
      obtain ⟨hshown, hdone⟩ := act_of_absent hbefore a
      rw [notes_concat, hshown, hdone]
      have hnone : fresh.notes index acts = [] := collect_of_absent (fun {s a} hnone => by
        rw [(act_of_absent hnone a).1, (act_of_absent hnone a).2]
        rfl) h hbefore
      rw [hnone]
      rfl
    rw [hnil]
    refine ⟨fun before note later heq => ?_, fun _ => rfl⟩
    simp at heq
  · rw [notes_concat]
    exact shows.noted (memory_of_after h acts)
      (fun w hw => hprogram ▸ worker_of_call h hbefore hw) hold.1 hold.2

/-! ## Cycles, stalls and the end -/

/-- The next action of a call is logged by its worker, if it has one. -/
theorem positions_of_act (hc : s.calls[index]? = some c)
    (hwork : ∀ w, c.stage = .active w → w.program = c.program ∧ w.Sound) (a : Act) :
    (s.shown index [a]).filterMap Event.position? =
      (s.cycle? index a).toList.filter fun ip => (c.program.op? ip).isSome := by
  rw [shown_single, cycle?, stage?_of_call hc, Option.bind_some]
  by_cases ha : a = .advance index
  · rw [if_pos ha, if_pos ha, ha, act_advance_eq hc]
    obtain ⟨manner, program, stage⟩ := c
    cases stage with
    | active w =>
      obtain ⟨rfl, hw⟩ := hwork w rfl
      cases hmoved : w.advance s.engine.running s.engine.queue with
      | mk progress queue events =>
        have hpositions := (Worker.logs_of_advance hw hmoved).positions
        cases progress <;> simpa [Call.advance, hmoved, Stage.cycle?] using hpositions
    | launching =>
      cases hlaunch : Worker.launch program s.engine.memory <;>
        simp [Call.advance, hlaunch, Stage.cycle?, Event.position?]
    | requested => cases hbusy : s.engine.busy <;> simp [Call.advance, hbusy, Stage.cycle?]
    | _ => rfl
  · rw [if_neg ha, if_neg ha]
    rfl

theorem positions_eq (h : System.new memory = .ok fresh)
    (hc : (fresh.after acts).calls[index]? = some c) :
    (fresh.shown index acts).filterMap Event.position? =
      (fresh.cycles index acts).filter fun ip => (c.program.op? ip).isSome := by
  refine call_induction (motive := fun acts _ => (fresh.shown index acts).filterMap Event.position? =
    (fresh.cycles index acts).filter fun ip => (c.program.op? ip).isSome)
    h (fun {acts a} hbefore => ?_) (fun {acts a c' stage} hbefore hprogram shows hold => ?_)
    acts hc rfl
  · have hcycle : ∀ {s : System} {a : Act}, s.calls[index]? = none →
        (s.cycle? index a).toList = [] := by
      intro s a hnone
      unfold cycle?
      split <;> simp [stage?, hnone]
    have hcycles : fresh.cycles index (acts ++ [a]) = [] := by
      rw [cycles_concat, hcycle hbefore, List.append_nil]
      exact collect_of_absent hcycle h hbefore
    rw [hcycles, shown_append, (unseen_of_absent h hbefore).1, (act_of_absent hbefore a).1]
    rfl
  · have hact := positions_of_act hbefore (fun w hw => worker_of_call h hbefore hw) a
    rw [hprogram] at hact
    rw [shown_append, List.filterMap_append, hold, hact, cycles_concat, List.filter_append]

/-- In any stretch of time an empty queue is logged as often as the hook is called. -/
theorem starved_eq (h : System.new memory = .ok fresh) (index : Nat) (before acts : List Act) :
    ((fresh.after before).shown index acts).countP Event.isStarved =
      hookCalls ((fresh.after before).shown index acts) := by
  induction acts using List.reverseRecOn with
  | nil => rfl
  | append_singleton acts a ih =>
    rw [shown_append, List.countP_append, hookCalls_append, ih, ← after_append]
    congr 1
    cases hc : (fresh.after (before ++ acts)).calls[index]? with
    | none =>
      rw [(act_of_absent hc a).1]
      rfl
    | some c =>
      obtain ⟨stage, -, shows⟩ := (exclusive_after h _).exists_shows hc a
      exact shows.starved fun w hw => (worker_of_call h hc hw).2

/-- A finish is logged of a run with an outcome. -/
theorem stage?_of_finished (h : System.new memory = .ok fresh) {event : Event}
    (hmem : event ∈ fresh.shown index acts) (hfinished : event.isFinished = true) :
    ∃ o flags, (fresh.after acts).stage? index = some (.closing (.done o) flags) := by
  obtain ⟨before, a, later, rfl, hact⟩ := exists_of_mem_collect hmem
  rw [← shown_single] at hact
  cases hc : (fresh.after before).calls[index]? with
  | none =>
    rw [(act_of_absent hc a).1] at hact
    cases hact
  | some c =>
    obtain ⟨stage, hc', shows⟩ := (exclusive_after h before).exists_shows hc a
    -- from the act on that logs the finish the run is over
    obtain ⟨o, hover⟩ :=
      shows.finished (fun w hw => (worker_of_call h hc hw).2) hact hfinished
    rw [← after_concat] at hc'
    obtain ⟨-, -, flags, hlater⟩ := closing_since h hc' hover later
    rw [List.append_assoc, List.singleton_append] at hlater
    exact ⟨o, flags, hlater⟩

/-- What is seen of a run up to its end: what was seen before the act that ends it, and of that act
what its worker logs. -/
theorem shown_of_end (h : System.new memory = .ok fresh) {before later : List Act} {w : Worker}
    {r : Result} {queue : ByteQueue} {events : List Event}
    (hstage : (fresh.after before).stage? index = some (.active w))
    (moved : w.advance (fresh.after before).engine.running (fresh.after before).engine.queue =
      ⟨.ended r, queue, events⟩) :
    fresh.shown index (before ++ .advance index :: later) = fresh.shown index before ++ events := by
  obtain ⟨c, hc, hw⟩ := exists_call_of_stage? hstage
  have hact : (fresh.after before).shown index [.advance index] = events := by
    rw [shown_single, if_pos rfl, act_advance_eq hc]
    obtain ⟨manner, program, _⟩ := c
    subst hw
    simp [Call.advance, moved]
  have hover := (Exit.worker hstage moved).stage?_eq
  obtain ⟨c', hc', hstage'⟩ := exists_call_of_stage? hover
  rw [← after_concat] at hc'
  have hclosing : c'.stage = .closing r 2 := hstage'
  have hlater := (silent_of_closing h hc' hclosing later).1
  rw [← List.singleton_append, ← List.append_assoc, shown_append, hlater, shown_append, hact,
    List.append_nil]

/-- What a run with an outcome has logged last. -/
theorem shown_of_outcome (h : System.new memory = .ok fresh)
    (hc : (fresh.after acts).calls[index]? = some c) {o : Outcome} {flags : Nat}
    (hflags : flags ≤ 2) (hover : c.stage = .closing (.done o) flags) :
    ∃ front ip, fresh.shown index acts = front ++ [.finished o.termination ip o.output.size] ∧
      (∀ event ∈ front, event.isFinished = false) ∧
      (ip = c.program.size ↔ o.termination = .completed) := by
  obtain ⟨before, a, later, rfl, exit, -⟩ := exists_exit h hflags (by rw [stage?_of_call hc, hover])
  generalize hr : Result.done o = r at exit
  cases exit with
  | hook | tape | room | thread => cases hr
  | @worker w _ queue events hstage moved =>
    obtain ⟨c', hc', hw⟩ := exists_call_of_stage? hstage
    obtain ⟨hprogram, hsound, hip, -⟩ := whereabouts_of_call h hc' hw
    obtain ⟨stage, hlater⟩ := exists_call_after h hc' (.advance index :: later)
    obtain rfl : c = { c' with stage } := Option.some.inj (hc.symm.trans hlater)
    rw [shown_of_end h hstage moved]
    -- a finish that was logged before would have ended the run before
    have hquiet : ∀ event ∈ fresh.shown index before, event.isFinished = false := by
      intro event hmem
      rw [← Bool.not_eq_true]
      intro hfinished
      obtain ⟨o', flags', hclosing⟩ := stage?_of_finished h hmem hfinished
      exact (Stage.closing_ne _ flags').2.2 w (Option.some.inj (hclosing.symm.trans hstage))
    have logs := Worker.logs_of_advance hsound moved
    generalize Worker.completion? _ _ _ = done at logs
    cases logs with
    | finishes =>
      cases hr
      refine ⟨_, _, rfl, hquiet, ?_⟩
      rw [Machine.outcome_termination_iff, ← hprogram]
      exact ⟨fun heq => Nat.le_of_eq heq.symm, Nat.le_antisymm hip⟩
    | @fails _ _ failure => cases failure <;> cases hr

/-- What a run that a fault of one of its operators has ended has logged last. -/
theorem shown_of_fault (h : System.new memory = .ok fresh)
    (hc : (fresh.after acts).calls[index]? = some c) {cause : Fault} {flags ip : Nat} {op : Op}
    (hflags : flags ≤ 2) (hover : c.stage = .closing (.failed cause) flags)
    (hblames : cause.Blames ip op) :
    ∃ front pointer cell, fresh.shown index acts = front ++ [.step ip op pointer cell] ∧
      ∀ {ip' pointer' mark}, cause = .offTape ip' pointer' mark → pointer' = pointer := by
  obtain ⟨before, a, later, rfl, exit, -⟩ := exists_exit h hflags (by rw [stage?_of_call hc, hover])
  generalize hr : Result.failed cause = r at exit
  -- the faults of a thread and of a tape name no operator
  cases exit with
  | hook | room => cases hr
  | thread =>
    cases hr
    cases hblames
  | tape _ _ fault =>
    cases hr
    rw [Worker.launch_eq_error fault] at hblames
    cases hblames
  | @worker w _ queue events hstage moved =>
    obtain ⟨c', hc', hw⟩ := exists_call_of_stage? hstage
    obtain ⟨-, hsound, -, hsize⟩ := whereabouts_of_call h hc' hw
    rw [shown_of_end h hstage moved]
    have logs := Worker.logs_of_advance hsound moved
    generalize Worker.completion? _ _ _ = done at logs
    cases logs with
    | finishes => cases hr
    | @fails _ _ failure _ here current failed =>
      obtain ⟨cause', rfl, fails⟩ :=
        Machine.fails_of_perform hsound.inBounds hsize here current failed
      cases hr
      obtain ⟨op', hop, hblames'⟩ := fails.blames
      obtain ⟨rfl, rfl⟩ := hblames.unique hblames'
      cases here.symm.trans hop
      refine ⟨_, _, _, rfl, ?_⟩
      rintro ip' pointer' mark rfl
      exact fails.pointer_eq

/-! ## What the log tells -/

/-- The log of call number `index` tells how the call has gone under this schedule. -/
structure FaithfulLog (memory index : Nat) (fresh : System) (acts : List Act) (c : Call) : Prop where
  /-- The notes of the call are the steps of its log … -/
  steps : (fresh.notes index acts).filterMap Note.event? =
    (fresh.shown index acts).filter Event.isStep
  /-- … and the bytes that it takes. -/
  bytes : (fresh.notes index acts).filterMap Note.byte? =
    takenBytes (fresh.completions index acts)
  /-- There is a step for every cycle at an operator, in their order, and for no other cycle. -/
  cycles : (fresh.shown index acts).filterMap Event.position? =
    (fresh.cycles index acts).filter fun ip => (c.program.op? ip).isSome
  /-- A step names the operator of the program at its position. -/
  op : ∀ {before later ip op pointer cell},
    fresh.notes index acts = before ++ .step ip op pointer cell :: later → c.program.op? ip = some op
  /-- The pointer is how many steps before were at a `>`, less those at a `<`. -/
  pointer : ∀ {before later ip op cell} {pointer : Nat},
    fresh.notes index acts = before ++ .step ip op pointer cell :: later →
    (pointer : Int) = before.countP (·.isStepOf .right) - before.countP (·.isStepOf .left)
  /-- The cell is the current one of the tape that the notes before make of a blank one. -/
  cell : ∀ {before later ip op pointer cell},
    fresh.notes index acts = before ++ .step ip op pointer cell :: later →
    ∃ t, replay memory before = .ok t ∧ t.pointer = pointer ∧ t.current? = some cell
  /-- Two steps after each other are at one position only if the first is at a `,` and no byte was
  taken since, or at the `]` of a loop without operators. -/
  again : ∀ {before since later ip op pointer cell op' pointer' cell'},
    fresh.notes index acts =
      before ++ .step ip op pointer cell :: (since ++ .step ip op' pointer' cell' :: later) →
    (∀ note ∈ since, note.isStep = false) → Again c.program ip op since
  /-- What is printed are the cells of the steps at a `.`. -/
  printed : ∀ {w}, c.stage = .active w →
    w.machine.output.toList = (fresh.shown index acts).filterMap Event.printStep?
  output : ∀ {o flags}, flags ≤ 2 → c.stage = .closing (.done o) flags →
    o.output.toList = (fresh.shown index acts).filterMap Event.printStep?
  /-- An empty queue is logged for each call of the hook … -/
  starved : (fresh.shown index acts).countP Event.isStarved = hookCalls (fresh.shown index acts)
  /-- … and that is once while a `,` is carried out whose first look has found no byte. -/
  stall : ∀ {before read}, OneRead index fresh before read →
    ((fresh.after before).shown index read).countP Event.isStarved =
      if (fresh.after before).engine.queue.bytes = [] then 1 else 0
  /-- The last record of a run with an outcome is that it has finished, and there is no such record
  before. It names the number of steps at a `.`, and the end of the program if and only if the run
  was completed. -/
  finished : ∀ {o flags}, flags ≤ 2 → c.stage = .closing (.done o) flags → ∃ front ip,
    fresh.shown index acts = front ++ [.finished o.termination ip
        ((fresh.shown index acts).filterMap Event.printStep?).length] ∧
      (∀ event ∈ front, event.isFinished = false) ∧
      (ip = c.program.size ↔ o.termination = .completed)
  /-- Without an outcome there is no such record. -/
  unfinished : (∀ o flags, c.stage ≠ .closing (.done o) flags) →
    ∀ event ∈ fresh.shown index acts, event.isFinished = false
  /-- The last record of a run that an operator has failed is the step at that operator. -/
  blamed : ∀ {cause flags ip op}, flags ≤ 2 → c.stage = .closing (.failed cause) flags →
    cause.Blames ip op → ∃ front pointer cell,
      fresh.shown index acts = front ++ [.step ip op pointer cell] ∧
        ∀ {ip' pointer' mark}, cause = .offTape ip' pointer' mark → pointer' = pointer

/-- The log of a run is faithful, whatever the program, the number of cells and the schedule. Its
steps are the cycles at an operator, with the operator of the program, with the pointer that the
steps before at `>` and `<` lead to and with the cell that they and the bytes taken between them make
of a blank tape; a position is repeated at once only by a `,` that has taken no byte and by the end
of a loop without operators; the output are the cells of the steps at a `.`; each stall is logged
once; and the last record is that the run has finished, with the number of the bytes and with the end
of the program if it was completed, or, where an operator has failed, the step at that operator. -/
theorem log_is_faithful (h : System.new memory = .ok fresh)
    (hc : (fresh.after acts).calls[index]? = some c) :
    FaithfulLog memory index fresh acts c := by
  obtain ⟨faithful, -⟩ := noted_of_call h hc
  have heard := heard_of_call h hc
  have told := heard.told
  have houtput : ∀ {o flags}, flags ≤ 2 → c.stage = .closing (.done o) flags →
      o.output.toList = (fresh.shown index acts).filterMap Event.printStep? := by
    intro o flags _ hover
    rw [hover] at told
    rw [← heard.reached]
    obtain _ | _ | _ := flags <;> exact (told o rfl).symm
  refine {
    steps := filterMap_event?_notes index fresh acts
    bytes := filterMap_byte?_notes index fresh acts
    cycles := positions_eq h hc
    op := fun heq => (faithful _ _ _ heq).1
    pointer := fun heq => ?_
    cell := fun heq => (faithful _ _ _ heq).2.1
    again := fun heq hsince => ?_
    printed := fun hw => ?_
    output := houtput
    starved := starved_eq h index [] acts
    stall := fun read => (starved_eq h index _ _).trans (read.hookCalls_eq h)
    finished := fun hflags hover => ?_
    unfinished := fun hopen event hmem => ?_
    blamed := shown_of_fault h hc }
  · obtain ⟨t, hreplay, rfl, -⟩ := (faithful _ _ _ heq).2.1
    exact pointer_replay hreplay
  · rw [← List.cons_append, ← List.append_assoc] at heq
    exact (faithful _ _ _ heq).2.2 _ _ ⟨_, _, _, rfl, hsince⟩
  · rw [hw] at told
    rw [← heard.reached]
    exact told.1.symm
  · obtain ⟨front, ip, hshown, hquiet, hend⟩ := shown_of_outcome h hc hflags hover
    refine ⟨front, ip, ?_, hquiet, hend⟩
    rw [← houtput hflags hover, Array.length_toList]
    exact hshown
  · rw [← Bool.not_eq_true]
    intro hfinished
    obtain ⟨o, flags, hover⟩ := stage?_of_finished h hmem hfinished
    exact hopen o flags (Option.some.inj ((stage?_of_call hc).symm.trans hover))

/-- A `,` that is logged twice, since its byte comes in its second cycle. -/
theorem log_is_faithful_of_late_byte :
    let program : Program := .ofChars [',', '.']
    let fresh : System := ⟨⟨1, .empty, false, false⟩, #[]⟩
    let acts : List Act := .call .run program :: List.replicate 10 (.advance 0) ++
      .push [7] :: List.replicate 6 (.advance 0)
    let o : Outcome := ⟨#[7], .completed, ⟨#[7], 0⟩⟩
    let c : Call := ⟨.run, program, .returned (.done o)⟩
    System.new 1 = .ok fresh ∧ (fresh.after acts).calls[0]? = some c ∧
      fresh.notes 0 acts =
        [.step 0 .read 0 0, .step 0 .read 0 0, .took 7, .step 1 .print 0 7] ∧
      Again program 0 .read [] ∧ o.output.toList = [7] ∧
      ∃ front, fresh.shown 0 acts = front ++ [.finished .completed 2 1] := by
  intro program fresh acts o c
  have new : System.new 1 = .ok fresh := rfl
  have call : (fresh.after acts).calls[0]? = some c := by decide
  have notes : fresh.notes 0 acts =
      [.step 0 .read 0 0, .step 0 .read 0 0, .took 7, .step 1 .print 0 7] := by decide
  have prints : (fresh.shown 0 acts).filterMap Event.printStep? = [7] := by decide
  have faithful := log_is_faithful new call
  have output := faithful.output (Nat.zero_le 2) rfl
  obtain ⟨front, ip, hshown, -, hend⟩ := faithful.finished (Nat.zero_le 2) rfl
  rw [prints] at output hshown
  obtain rfl : ip = 2 := hend.mpr rfl
  have twice : fresh.notes 0 acts = [] ++ .step 0 .read 0 0 ::
      ([] ++ .step 0 .read 0 0 :: [.took 7, .step 1 .print 0 7]) := notes
  exact ⟨new, call, notes, faithful.again twice nofun, output, front, hshown⟩

end System

end Brainfuck
