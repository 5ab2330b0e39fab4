import Brainfuck.Proofs.Partners
import Brainfuck.Tape.Edit

/-!
# What the log of a run tells

`Worker.Logs` lists what one piece of work does together with what others see of it: only a cycle at
an operator is logged, before the operator is carried out, and a `,` may be logged again and again
until it has its byte. The steps of the log and the bytes that are taken between them, in the order
of time, are the notes of a run (`Note`).

The notes tell the whole course of the tape: each of them is an edit of it or none, and what they
make of a blank tape (`replay`) is the tape of the worker. So a step can be checked against the notes
before it (`Note.Fits`). It names the operator of the program and shows the pointer and the cell of
the replayed tape, and it is at the same position as the step before it only if that was a `,`
without a byte or the end of a loop without operators. A worker that has kept its notes (`KeepsNotes`)
knows for the last of them where it has gone on since (`Came`); this and the replayed tape are what
one piece of work keeps (`KeepsNotes.logs`).
-/

namespace Brainfuck

/-! ## One piece of work -/

namespace Worker

/-- The position at which a worker begins a cycle. -/
def cycle? (running : Bool) (w : Worker) : Option Nat :=
  if w.phase = .ready ∧ w.machine.ip < w.program.size ∧ running = true then some w.machine.ip
  else none

/-- What a piece of work comes to, what others see of it, and which operator it completes. -/
inductive Logs (running : Bool) (queue : ByteQueue) (w : Worker) :
    Progress → List Event → Option Completion → Prop where
  /-- A cycle at a comment. -/
  | passes (cycle : w.cycle? running = some w.machine.ip)
      (comment : w.program.op? w.machine.ip = none) :
      Logs running queue w (.working ⟨w.program, w.machine.skip, w.stalled, .ready⟩) [] none
  /-- A cycle reaches a `,`. -/
  | reaches {cell : UInt8} (cycle : w.cycle? running = some w.machine.ip)
      (here : w.program.op? w.machine.ip = some .read)
      (current : w.machine.tape.current? = some cell) :
      Logs running queue w (.working (w.enter .fetching))
        [.step w.machine.ip .read w.machine.tape.pointer cell] none
  /-- A cycle carries out another operator. -/
  | performs {op : Op} {cell : UInt8} {machine : Machine} {phase : Phase}
      (cycle : w.cycle? running = some w.machine.ip)
      (here : w.program.op? w.machine.ip = some op) (other : op ≠ .read)
      (current : w.machine.tape.current? = some cell)
      (performed : w.machine.perform w.program cell op = .ok machine)
      (after : phase = .ready ∨ phase = .printing) :
      Logs running queue w (.working ⟨w.program, machine, w.stalled, phase⟩)
        (.step w.machine.ip op w.machine.tape.pointer cell ::
          if op = .print then [.printed cell (w.machine.output.push cell)] else [])
        (some ⟨w.machine.ip, none, machine⟩)
  /-- A cycle comes to an operator that cannot be carried out. -/
  | fails {op : Op} {cell : UInt8} {failure : Failure}
      (cycle : w.cycle? running = some w.machine.ip)
      (here : w.program.op? w.machine.ip = some op)
      (current : w.machine.tape.current? = some cell)
      (failed : w.machine.perform w.program cell op = .error failure) :
      Logs running queue w (.ended (.ofFailure failure))
        [.step w.machine.ip op w.machine.tape.pointer cell] none
  /-- There is no next cycle. -/
  | finishes (cycle : w.cycle? running = none) :
      Logs running queue w (.ended (.done (w.machine.outcome w.program)))
        [.finished (w.machine.outcome w.program).termination w.machine.ip
          (w.machine.outcome w.program).output.size] none
  /-- A `,` looks into the queue for the first time and finds nothing. -/
  | starves (cycle : w.cycle? running = none) (inside : w.Fetches) (empty : queue.bytes = []) :
      Logs running queue w (.working ⟨w.program, w.machine, true, .announcing⟩)
        [.starved w.machine.ip, .wanted] none
  /-- A `,` gets its byte. -/
  | takes {value : UInt8} {rest : List UInt8} (cycle : w.cycle? running = none) (inside : w.Fetches)
      (bytes : queue.bytes = value :: rest) :
      Logs running queue w (.working (w.receive value)) []
        (some ⟨w.machine.ip, some value, w.machine.accept value⟩)
  /-- The worker comes out of a hook, or goes on waiting, or gives up for this cycle. -/
  | rests {phase : Phase} (cycle : w.cycle? running = none)
      (inside : (w.enter phase).Fetches → w.Fetches) :
      Logs running queue w (.working (w.enter phase)) [] none

variable {running : Bool} {queue queue' : ByteQueue} {w : Worker} {progress : Progress}
  {events : List Event}

theorem cycle?_of_phase (hphase : w.phase ≠ .ready) : w.cycle? running = none :=
  if_neg fun h => hphase h.1

/-- The head of a cycle that goes on. -/
theorem logs_of_cycle {program : Program} {machine : Machine} {stalled : Bool}
    (hw : machine.tape.InBounds) (hip : machine.ip < program.size)
    (moved : advance true queue ⟨program, machine, stalled, .ready⟩ =
      ⟨progress, queue', events⟩) :
    Logs true queue ⟨program, machine, stalled, .ready⟩ progress events
      (completion? true queue ⟨program, machine, stalled, .ready⟩) := by
  have hcycle : cycle? true ⟨program, machine, stalled, .ready⟩ = some machine.ip :=
    if_pos ⟨rfl, hip, rfl⟩
  obtain ⟨cell, hcell⟩ := hw.exists_current?
  cases hop : program.op? machine.ip with
  | none =>
    have hdone : completion? true queue ⟨program, machine, stalled, .ready⟩ = none := by
      simp [completion?, advance, cycle, hip, hop]
    rw [hdone]
    simp only [advance, cycle, hip, hop, decide_true, Bool.and_true, if_true] at moved
    cases moved
    exact .passes hcycle hop
  | some op =>
    have hevents := events_of_op? stalled queue hop hcell
    by_cases hread : op = .read
    · subst hread
      have hdone : completion? true queue ⟨program, machine, stalled, .ready⟩ = none := by
        simp [completion?, advance, cycle, hip, hop, hcell]
      rw [hdone]
      simp only [advance, cycle, hip, hop, hcell, decide_true, Bool.and_true, if_true] at moved
      cases moved
      exact .reaches hcycle hop hcell
    · cases hperform : machine.perform program cell op with
      | ok machine' =>
        obtain ⟨phase, _, hphase, hadvance⟩ :=
          advance_performs stalled queue hop hread hcell hperform
        have hdone : completion? true queue ⟨program, machine, stalled, .ready⟩ =
            some ⟨machine.ip, none, machine'⟩ := by
          simp only [completion?, hadvance, hop]
        rw [hdone]
        rw [hadvance] at hevents
        obtain rfl : _ = _ := hevents
        cases hadvance.symm.trans moved
        exact .performs hcycle hop hread hcell hperform hphase
      | error failure =>
        obtain ⟨_, hadvance⟩ := advance_fails stalled queue hop hread hcell hperform
        have hprint : op ≠ .print := by
          rintro rfl
          cases hperform
        have hdone : completion? true queue ⟨program, machine, stalled, .ready⟩ = none := by
          simp [completion?, hadvance]
        rw [hdone]
        rw [hadvance, if_neg hprint] at hevents
        obtain rfl : _ = _ := hevents
        cases hadvance.symm.trans moved
        exact .fails hcycle hop hcell hperform

/-- What every piece of work logs. -/
theorem logs_of_advance (hw : w.Sound)
    (moved : w.advance running queue = ⟨progress, queue', events⟩) :
    w.Logs running queue progress events (w.completion? running queue) := by
  obtain ⟨program, machine, stalled, phase⟩ := w
  obtain ⟨bytes⟩ := queue
  cases phase with
  | ready =>
    by_cases hgo : machine.ip < program.size ∧ running = true
    · obtain ⟨hip, rfl⟩ := hgo
      exact logs_of_cycle hw.inBounds hip moved
    · have hdone : completion? running ⟨bytes⟩ ⟨program, machine, stalled, .ready⟩ = none := by
        simp [completion?, advance, cycle, hgo]
      rw [hdone]
      simp [advance, cycle, hgo] at moved
      obtain ⟨rfl, rfl, rfl⟩ := moved
      exact .finishes (if_neg fun h => hgo h.2)
  | fetching =>
    have hnone : cycle? running ⟨program, machine, stalled, .fetching⟩ = none :=
      cycle?_of_phase (by simp)
    cases bytes with
    | nil =>
      cases stalled with
      | false =>
        cases moved
        exact .starves hnone (.inl rfl) rfl
      | true =>
        cases moved
        exact .rests hnone fun _ => .inl rfl
    | cons value rest =>
      cases moved
      exact .takes hnone (.inl rfl) rfl
  | awaiting =>
    have hnone : cycle? running ⟨program, machine, stalled, .awaiting⟩ = none :=
      cycle?_of_phase (by simp)
    cases bytes with
    | nil =>
      cases moved
      exact .rests hnone fun _ => .inr (.inr rfl)
    | cons value rest =>
      cases moved
      exact .takes hnone (.inr (.inr rfl)) rfl
  | announcing =>
    cases moved
    exact .rests (cycle?_of_phase (by simp)) fun _ => .inr (.inl rfl)
  | printing =>
    cases moved
    exact .rests (cycle?_of_phase (by simp)) fun h => absurd h (not_fetches (.inl rfl))

end Worker

/-! ## Notes -/

/-- A step of the log, or a byte that a `,` takes. -/
inductive Note where
  | step (ip : Nat) (op : Op) (pointer : Nat) (cell : UInt8)
  | took (value : UInt8)
  deriving DecidableEq

namespace Note

/-- The record of the log that the note is, if it is one. -/
def event? : Note → Option Event
  | .step ip op pointer cell => some (.step ip op pointer cell)
  | .took _ => none

/-- The byte that was taken, if one was. -/
def byte? : Note → Option UInt8
  | .step _ _ _ _ => none
  | .took value => some value

/-- The note is a step. -/
def isStep : Note → Bool
  | .step _ _ _ _ => true
  | .took _ => false

/-- The note is a step at this operator. -/
def isStepOf (op : Op) : Note → Bool
  | .step _ op' _ _ => op' == op
  | .took _ => false

/-- What the note does to the tape. -/
def edit? : Note → Option Tape.Edit
  | .step ip .right _ _ => some (.right ip)
  | .step ip .left _ _ => some (.left ip)
  | .step _ .increment _ _ => some .increment
  | .step _ .decrement _ _ => some .decrement
  | .step _ _ _ _ => none
  | .took value => some (.set value)

end Note

/-- The step that an event is, as a note. -/
def Event.note? : Event → Option Note
  | .step ip op pointer cell => some (.step ip op pointer cell)
  | _ => none

/-- What is noted of these events and of this operator. -/
def notesOf (events : List Event) (done : Option Completion) : List Note :=
  events.filterMap Event.note? ++ (done.bind Completion.taken).toList.map .took

theorem filterMap_event?_notesOf (events : List Event) (done : Option Completion) :
    (notesOf events done).filterMap Note.event? = events.filter Event.isStep := by
  have htook : ∀ value : Option UInt8, (value.toList.map Note.took).filterMap Note.event? = [] := by
    rintro (_ | value) <;> rfl
  rw [notesOf, List.filterMap_append, htook, List.append_nil, List.filterMap_filterMap,
    ← List.filterMap_eq_filter]
  congr 1
  funext event
  cases event <;> rfl

theorem filterMap_byte?_notesOf (events : List Event) (done : Option Completion) :
    (notesOf events done).filterMap Note.byte? = takenBytes done.toList := by
  have hsteps : (events.filterMap Event.note?).filterMap Note.byte? = [] := by
    rw [List.filterMap_filterMap]
    refine List.filterMap_eq_nil_iff.mpr fun event _ => ?_
    cases event <;> rfl
  rw [notesOf, List.filterMap_append, hsteps, List.nil_append]
  obtain _ | ⟨ip, _ | value, machine⟩ := done <;> rfl

/-! ## The replayed tape -/

/-- The tape that the notes make of a blank one of `memory` cells. -/
def replay (memory : Nat) (notes : List Note) : Except Fault Tape :=
  match Tape.blank memory with
  | .ok t => t.editAll (notes.filterMap Note.edit?)
  | .error cause => .error cause

theorem replay_nil {memory : Nat} {machine : Machine} (h : Machine.start memory = .ok machine) :
    replay memory [] = .ok machine.tape := by
  obtain ⟨tape, hblank, rfl⟩ := Machine.start_eq_ok h
  rw [replay, hblank]
  rfl

/-- One more note is one more edit, or none. -/
theorem replay_concat {memory : Nat} {notes : List Note} {t t' : Tape}
    (h : replay memory notes = .ok t) {note : Note}
    (hnote : note.edit?.elim (.ok t) t.attempt = .ok t') :
    replay memory (notes ++ [note]) = .ok t' := by
  unfold replay at h ⊢
  split at h
  · rw [List.filterMap_append, Tape.editAll_append h]
    cases hedit : note.edit? with
    | none =>
      rw [hedit] at hnote
      simpa [hedit, Tape.editAll] using hnote
    | some e =>
      rw [hedit] at hnote
      simpa [hedit, Tape.editAll] using Tape.editAll_cons_of_ok hnote []
  · cases h

/-- A step at a `>` moves the pointer right, one at a `<` moves it left, and no other note moves it. -/
theorem Note.pointer_eq {note : Note} {t t' : Tape}
    (h : note.edit?.elim (.ok t) t.attempt = .ok t') :
    t'.pointer + [note].countP (·.isStepOf .left) =
      t.pointer + [note].countP (·.isStepOf .right) := by
  obtain ⟨ip, op, pointer, cell⟩ | value := note
  · cases op with
    | right =>
      have hmove : t.moveRight ip = .ok t' := h
      unfold Tape.moveRight at hmove
      split at hmove <;> cases hmove
      rfl
    | left =>
      have hmove : t.moveLeft ip = .ok t' := h
      unfold Tape.moveLeft at hmove
      split at hmove
      · next hpos =>
        cases hmove
        exact Nat.sub_add_cancel hpos
      · cases hmove
    | increment | decrement | print | read | openLoop | closeLoop =>
      cases h
      rfl
  · cases h
    rfl

/-- The pointer has gone right as often as there are steps at a `>`, and left as often as there are
steps at a `<`. -/
theorem pointer_editAll {notes : List Note} {t t' : Tape}
    (h : t.editAll (notes.filterMap Note.edit?) = .ok t') :
    t'.pointer + notes.countP (·.isStepOf .left) =
      t.pointer + notes.countP (·.isStepOf .right) := by
  induction notes generalizing t with
  | nil =>
    cases h
    rfl
  | cons note notes ih =>
    have hfirst : ∃ t₁, note.edit?.elim (.ok t) t.attempt = .ok t₁ ∧
        t₁.editAll (notes.filterMap Note.edit?) = .ok t' := by
      cases hedit : note.edit? with
      | none => exact ⟨t, rfl, List.filterMap_cons_none hedit ▸ h⟩
      | some e => exact Tape.exists_of_editAll_cons (List.filterMap_cons_some hedit ▸ h)
    obtain ⟨t₁, hnote, hrest⟩ := hfirst
    have hpointer := note.pointer_eq hnote
    have hlater := ih hrest
    rw [← List.singleton_append, List.countP_append, List.countP_append]
    omega

theorem pointer_replay {memory : Nat} {notes : List Note} {t : Tape}
    (h : replay memory notes = .ok t) :
    (t.pointer : Int) =
      notes.countP (·.isStepOf .right) - notes.countP (·.isStepOf .left) := by
  unfold replay at h
  split at h
  · next blank hblank =>
    have hpointer := pointer_editAll h
    have hzero : blank.pointer = 0 := by
      unfold Tape.blank at hblank
      split at hblank <;> cases hblank
      rfl
    omega
  · cases h

/-! ## Steps after each other -/

/-- The last step of the notes is one at `ip` with the operator `op`, and these are the notes since.
-/
def LastStep (notes : List Note) (ip : Nat) (op : Op) (since : List Note) : Prop :=
  ∃ front pointer cell, notes = front ++ .step ip op pointer cell :: since ∧
    ∀ note ∈ since, note.isStep = false

theorem LastStep.of_step {notes since : List Note} {ip ip' pointer : Nat} {op op' : Op}
    {cell : UInt8} (h : LastStep (notes ++ [.step ip op pointer cell]) ip' op' since) :
    ip' = ip ∧ op' = op ∧ since = [] := by
  obtain ⟨front, pointer', cell', heq, hsince⟩ := h
  rcases List.eq_nil_or_concat since with rfl | ⟨since, last, rfl⟩
  · obtain ⟨-, hlast⟩ := List.append_inj' heq rfl
    cases hlast
    exact ⟨rfl, rfl, rfl⟩
  · rw [List.concat_eq_append, ← List.cons_append, ← List.append_assoc] at heq
    obtain ⟨-, hlast⟩ := List.append_inj' heq rfl
    cases hlast
    have hstep := hsince (.step ip op pointer cell) (by simp)
    cases hstep

theorem LastStep.of_took {notes since : List Note} {ip : Nat} {op : Op} {value : UInt8}
    (h : LastStep (notes ++ [.took value]) ip op since) :
    ∃ earlier, since = earlier ++ [.took value] ∧ LastStep notes ip op earlier := by
  obtain ⟨front, pointer, cell, heq, hsince⟩ := h
  rcases List.eq_nil_or_concat since with rfl | ⟨since, last, rfl⟩
  · obtain ⟨-, hlast⟩ := List.append_inj' heq rfl
    cases hlast
  · rw [List.concat_eq_append] at heq hsince ⊢
    rw [← List.cons_append, ← List.append_assoc] at heq
    obtain ⟨hnotes, hlast⟩ := List.append_inj' heq rfl
    cases hlast
    exact ⟨since, rfl, front, pointer, cell, hnotes,
      fun note hnote => hsince note (List.mem_append_left _ hnote)⟩

/-- A step at `ip` may follow a step at the same position with this operator and with these notes
since: the `,` there has taken no byte, or it is the `]` of a loop without operators. -/
inductive Again (program : Program) (ip : Nat) : Op → List Note → Prop where
  | waits : Again program ip .read []
  | idles {start : Nat} {since : List Note} (partners : program.Partners start ip)
      (empty : ∀ pos, start < pos → pos < ip → program.op? pos = none) :
      Again program ip .closeLoop since

/-- The note agrees with the program and with the notes before it. -/
def Note.Fits (memory : Nat) (program : Program) (before : List Note) : Note → Prop
  | .step ip op pointer cell =>
    program.op? ip = some op ∧
      (∃ t, replay memory before = .ok t ∧ t.pointer = pointer ∧ t.current? = some cell) ∧
      ∀ op' since, LastStep before ip op' since → Again program ip op' since
  | .took _ => True

/-- Every note agrees with the program and with the notes before it. -/
def Faithful (memory : Nat) (program : Program) (notes : List Note) : Prop :=
  ∀ before note later, notes = before ++ note :: later → note.Fits memory program before

theorem Faithful.concat {memory : Nat} {program : Program} {notes : List Note} {note : Note}
    (h : Faithful memory program notes) (hnote : note.Fits memory program notes) :
    Faithful memory program (notes ++ [note]) := by
  intro before note' later heq
  rcases List.eq_nil_or_concat later with rfl | ⟨later, last, rfl⟩
  · obtain ⟨rfl, hlast⟩ := List.append_inj' heq rfl
    cases hlast
    exact hnote
  · rw [List.concat_eq_append, ← List.cons_append, ← List.append_assoc] at heq
    exact h before note' later (List.append_inj' heq rfl).1

/-! ## A worker and its notes -/

/-- Where the operator at `ip` leads to: onward, or from the end of a loop to its beginning. -/
inductive Lands (program : Program) (ip : Nat) : Op → Nat → Prop where
  | onward {op : Op} {land : Nat} (lt : ip < land) : Lands program ip op land
  | back {start : Nat} (partners : program.Partners start ip) :
      Lands program ip .closeLoop (start + 1)

/-- Where the worker has come to since the step at `ip`: it is still at the `,` there, or it has gone
on and has passed only comments. -/
inductive Came (w : Worker) (ip : Nat) : Op → List Note → Prop where
  | stays (here : w.machine.ip = ip) (read : w.program.op? ip = some .read) : Came w ip .read []
  | goes {op : Op} {since : List Note} {land : Nat} (lands : Lands w.program ip op land)
      (le : land ≤ w.machine.ip)
      (comments : ∀ pos, land ≤ pos → pos < w.machine.ip → w.program.op? pos = none)
      (outside : ¬ w.Fetches) : Came w ip op since

/-- What the notes of a run tell of its worker: its tape, and where it has come to since its last
step. -/
structure KeepsNotes (memory : Nat) (notes : List Note) (w : Worker) : Prop where
  tape : replay memory notes = .ok w.machine.tape
  came : ∀ {ip op since}, LastStep notes ip op since → Came w ip op since

/-- An operator that is carried out edits the tape as its note says, and leads to where it should. -/
theorem Machine.perform_noted {p : Program} {m m' : Machine} {op : Op} {cell : UInt8}
    (hop : p.op? m.ip = some op) (hread : op ≠ .read) (pointer : Nat)
    (h : m.perform p cell op = .ok m') :
    (Note.step m.ip op pointer cell).edit?.elim (.ok m.tape) m.tape.attempt = .ok m'.tape ∧
      Lands p m.ip op m'.ip := by
  obtain ⟨tape, output, ip⟩ := m
  cases op with
  | right | left =>
    simp only [perform] at h
    split at h <;> cases h
    next hmove => exact ⟨hmove, .onward (Nat.lt_succ_self ip)⟩
  | increment | decrement | print =>
    cases h
    exact ⟨rfl, .onward (Nat.lt_succ_self ip)⟩
  | read => exact absurd rfl hread
  | openLoop =>
    simp only [perform] at h
    split at h
    · split at h <;> cases h
      next hexit =>
        have partners := (Program.loopExit_eq_ok_iff hop).mp hexit
        exact ⟨rfl, .onward (Nat.lt_succ_of_lt partners.lt)⟩
    · cases h
      exact ⟨rfl, .onward (Nat.lt_succ_self ip)⟩
  | closeLoop =>
    simp only [perform] at h
    split at h
    · cases h
      exact ⟨rfl, .onward (Nat.lt_succ_self ip)⟩
    · split at h <;> cases h
      next hentry => exact ⟨rfl, .back ((Program.loopEntry_eq_ok_iff hop).mp hentry)⟩

namespace KeepsNotes

variable {memory : Nat} {running : Bool} {queue : ByteQueue} {w w' : Worker} {progress : Progress}
  {events : List Event} {done : Option Completion} {notes : List Note} {op : Op} {cell : UInt8}

/-- The step of a cycle agrees with the notes so far. -/
theorem fits (h : KeepsNotes memory notes w) (hop : w.program.op? w.machine.ip = some op)
    (hcell : w.machine.tape.current? = some cell) :
    (Note.step w.machine.ip op w.machine.tape.pointer cell).Fits memory w.program notes := by
  refine ⟨hop, ⟨w.machine.tape, h.tape, rfl, hcell⟩, fun op' since hlast => ?_⟩
  cases h.came hlast with
  | stays => exact .waits
  | goes lands le comments =>
    -- from an operator that leads onward the worker does not come back without another step
    cases lands with
    | onward hlt => exact absurd le (Nat.not_le.mpr hlt)
    | back partners => exact .idles partners comments

/-- Where nothing is noted the worker stays at its position, or goes past a comment. -/
theorem silent (h : KeepsNotes memory notes w) (hprogram : w'.program = w.program)
    (htape : w'.machine.tape = w.machine.tape) (hfetches : w'.Fetches → w.Fetches)
    (hip : w'.machine.ip = w.machine.ip ∨
      w'.machine.ip = w.machine.ip + 1 ∧ w.program.op? w.machine.ip = none) :
    KeepsNotes memory notes w' := by
  refine ⟨htape ▸ h.tape, fun hlast => ?_⟩
  cases h.came hlast with
  | stays here read =>
    rcases hip with hip | ⟨-, hnone⟩
    · exact .stays (hip.trans here) (hprogram ▸ read)
    · rw [here, read] at hnone
      cases hnone
  | goes lands le comments outside =>
    refine .goes (hprogram ▸ lands) (by omega) (fun pos hle hlt => ?_) (outside ∘ hfetches)
    rw [hprogram]
    rcases hip with hip | ⟨hip, hnone⟩
    · exact comments pos hle (hip ▸ hlt)
    · rcases Nat.lt_succ_iff_lt_or_eq.mp (hip ▸ hlt) with hlt | rfl
      · exact comments pos hle hlt
      · exact hnone

/-- A worker inside a `,` is at the position of its last step. -/
theorem ip_eq (h : KeepsNotes memory notes w) (hinside : w.Fetches) {ip : Nat}
    {since : List Note} (hlast : LastStep notes ip op since) : w.machine.ip = ip := by
  cases h.came hlast with
  | stays here => exact here
  | goes _ _ _ outside => exact absurd hinside outside

/-- A piece of work notes what agrees with the notes before it, and the notes tell of the worker
after it what they have told before. -/
theorem logs (h : KeepsNotes memory notes w)
    (faithful : Faithful memory w.program notes)
    (logs : w.Logs running queue progress events done) :
    Faithful memory w.program (notes ++ notesOf events done) ∧
      ∀ w', progress = .working w' → KeepsNotes memory (notes ++ notesOf events done) w' := by
  have nothing : notes ++ notesOf [] none = notes := List.append_nil notes
  cases logs with
  | passes _ comment =>
    rw [nothing]
    refine ⟨faithful, ?_⟩
    rintro _ ⟨⟩
    exact h.silent rfl rfl (fun hf => absurd hf (Worker.not_fetches (.inl rfl)))
      (.inr ⟨rfl, comment⟩)
  | reaches cycle here current =>
    refine ⟨faithful.concat (h.fits here current), ?_⟩
    rintro _ ⟨⟩
    refine ⟨replay_concat h.tape rfl, fun hlast => ?_⟩
    obtain ⟨rfl, rfl, rfl⟩ := hlast.of_step
    exact .stays rfl here
  | @performs op cell machine phase cycle here other current performed after =>
    have noted : notesOf (.step w.machine.ip op w.machine.tape.pointer cell ::
        if op = .print then [.printed cell (w.machine.output.push cell)] else [])
        (some ⟨w.machine.ip, none, machine⟩) =
        [.step w.machine.ip op w.machine.tape.pointer cell] := by
      split <;> rfl
    obtain ⟨hedit, hlands⟩ :=
      Machine.perform_noted here other w.machine.tape.pointer performed
    rw [noted]
    refine ⟨faithful.concat (h.fits here current), ?_⟩
    rintro _ ⟨⟩
    refine ⟨replay_concat h.tape hedit, fun hlast => ?_⟩
    obtain ⟨rfl, rfl, rfl⟩ := hlast.of_step
    exact .goes hlands (Nat.le_refl _) (fun pos hle hlt => absurd hlt (Nat.not_lt.mpr hle))
      (Worker.not_fetches after)
  | fails _ here current =>
    exact ⟨faithful.concat (h.fits here current), nofun⟩
  | finishes =>
    rw [show notesOf [.finished _ _ _] none = [] from rfl, List.append_nil]
    exact ⟨faithful, nofun⟩
  | starves _ inside =>
    rw [show notesOf [.starved _, .wanted] none = [] from rfl, List.append_nil]
    refine ⟨faithful, ?_⟩
    rintro _ ⟨⟩
    exact h.silent rfl rfl (fun _ => inside) (.inl rfl)
  | @takes value rest _ inside =>
    refine ⟨faithful.concat trivial, ?_⟩
    rintro _ ⟨⟩
    refine ⟨replay_concat h.tape rfl, fun hlast => ?_⟩
    -- the byte is for the `,` that was logged last, and the worker goes on behind it
    obtain ⟨earlier, rfl, hbefore⟩ := hlast.of_took
    have hip := h.ip_eq inside hbefore
    refine .goes (.onward (Nat.lt_succ_self _)) (by rw [← hip]; exact Nat.le_refl _)
      (fun pos hle hlt => ?_) (Worker.not_fetches (.inl rfl))
    rw [← hip] at hle
    exact absurd hlt (Nat.not_lt.mpr hle)
  | rests _ inside =>
    rw [nothing]
    refine ⟨faithful, ?_⟩
    rintro _ ⟨⟩
    exact h.silent rfl rfl inside (.inl rfl)

end KeepsNotes

end Brainfuck
