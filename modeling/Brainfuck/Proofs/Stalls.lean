import Brainfuck.Proofs.Conservation
import Brainfuck.Proofs.Showing

/-!
# The input-wanted hook

A `,` that finds no byte calls the input-wanted hook and then comes back to the queue again and
again, cycle after cycle, until it gets a byte or the run ends. The hook is called once for all of
that (`System.hook_is_called_once_per_wait`), since the worker marks the `,` when it calls the hook
and takes the mark away when the `,` gets its byte.

What a piece of work does to the mark is listed by `Worker.Marks`. Two things follow for every act,
whoever makes it. The calls of the hook are paid for by bytes, up to the one call of a `,` that is
marked (`Stage.Shows.marked`); and as long as no operator is completed, a mark stays and the hook is
not called (`Stage.Shows.held`). The mark itself says what has happened: a `,` is marked exactly
when it was announced and no operator was completed since, so a look into the queue is the first one
for its `,` exactly if there is no mark (`System.comes_iff`).
-/

namespace Brainfuck

/-- How often the input-wanted hook is called. -/
def hookCalls (events : List Event) : Nat :=
  events.count .wanted

@[simp] theorem hookCalls_nil : hookCalls [] = 0 := rfl

@[simp] theorem hookCalls_append (events later : List Event) :
    hookCalls (events ++ later) = hookCalls events + hookCalls later :=
  List.count_append

namespace Worker

/-- What a piece of work that does not end the run does to the mark that a `,` waits. -/
inductive Marks (queue : ByteQueue) (w w' : Worker) (events : List Event) :
    Option Completion → Prop where
  /-- A `,` looks into the queue, finds nothing, and has not said so yet. -/
  | announces (phase : w.phase = .fetching) (unmarked : w.stalled = false)
      (empty : queue.bytes = []) (after : w' = ⟨w.program, w.machine, true, .announcing⟩)
      (said : events = [.starved w.machine.ip, .wanted]) : Marks queue w w' events none
  /-- A `,` gets the first byte of the queue. -/
  | receives {value : UInt8} {rest : List UInt8}
      (inside : w.phase = .fetching ∨ w.phase = .awaiting)
      (bytes : queue.bytes = value :: rest) (after : w' = w.receive value)
      (silent : hookCalls events = 0) :
      Marks queue w w' events (some ⟨w.machine.ip, some value, w'.machine⟩)
  /-- The worker stays where it is. -/
  | rests (program : w'.program = w.program) (machine : w'.machine = w.machine)
      (mark : w'.stalled = w.stalled)
      (phase : w.phase = .fetching → queue.bytes = [] ∧ w.stalled = true)
      (silent : hookCalls events = 0) : Marks queue w w' events none
  /-- The worker goes past a comment or completes an operator other than `,`. -/
  | goes {done : Option Completion} (phase : w.phase = .ready)
      (op : w.program.op? w.machine.ip ≠ some .read)
      (program : w'.program = w.program) (mark : w'.stalled = w.stalled)
      (silent : hookCalls events = 0) (taken : takenBytes done.toList = []) :
      Marks queue w w' events done

variable {running : Bool} {queue queue' : ByteQueue} {w w' : Worker} {progress : Progress}
  {events : List Event}

/-- A cycle that reaches an operator does not call the hook. -/
theorem hookCalls_of_op? {program : Program} {machine : Machine} {stalled : Bool} {op : Op}
    {cell : UInt8} (hop : program.op? machine.ip = some op)
    (hcell : machine.tape.current? = some cell)
    (moved : advance true queue ⟨program, machine, stalled, .ready⟩ =
      ⟨progress, queue', events⟩) : hookCalls events = 0 := by
  have hevents := events_of_op? stalled queue hop hcell
  rw [moved] at hevents
  obtain rfl : events = _ := hevents
  split <;> rfl

/-- At the head of a cycle an operator other than `,` leaves the mark as it is. -/
theorem marks_of_op? {program : Program} {machine : Machine} {stalled : Bool} {op : Op}
    {cell : UInt8} (hop : program.op? machine.ip = some op)
    (hcell : machine.tape.current? = some cell) (hread : op ≠ .read)
    (moved : advance true queue ⟨program, machine, stalled, .ready⟩ =
      ⟨.working w', queue', events⟩) :
    Marks queue ⟨program, machine, stalled, .ready⟩ w' events
      (completion? true queue ⟨program, machine, stalled, .ready⟩) := by
  have hsilent := hookCalls_of_op? hop hcell moved
  have hread' : program.op? machine.ip ≠ some .read := by
    rw [hop]
    exact fun h => hread (Option.some.inj h)
  cases hperform : machine.perform program cell op with
  | ok machine' =>
    obtain ⟨phase, events', -, hadvance⟩ :=
      advance_performs stalled queue hop hread hcell hperform
    have hdone : completion? true queue ⟨program, machine, stalled, .ready⟩ =
        some ⟨machine.ip, none, machine'⟩ := by
      simp only [completion?, hadvance, hop]
    rw [hdone]
    cases hadvance.symm.trans moved
    exact .goes rfl hread' rfl rfl hsilent rfl
  | error failure =>
    obtain ⟨events', hadvance⟩ := advance_fails stalled queue hop hread hcell hperform
    cases hadvance.symm.trans moved

theorem marks_of_advance (hw : w.Sound)
    (moved : w.advance running queue = ⟨.working w', queue', events⟩) :
    Marks queue w w' events (w.completion? running queue) := by
  obtain ⟨program, machine, stalled, phase⟩ := w
  obtain ⟨bytes⟩ := queue
  cases phase with
  | ready =>
    by_cases hgo : machine.ip < program.size ∧ running = true
    · obtain ⟨hip, rfl⟩ := hgo
      obtain ⟨cell, hcell⟩ := hw.inBounds.exists_current?
      cases hop : program.op? machine.ip with
      | none =>
        have hdone : completion? true ⟨bytes⟩ ⟨program, machine, stalled, .ready⟩ = none := by
          simp [completion?, moved, hop]
        rw [hdone]
        simp only [advance, cycle, hip, hop, decide_true, Bool.and_true, if_true] at moved
        cases moved
        exact .goes rfl (by rw [hop]; rintro ⟨⟩) rfl rfl rfl rfl
      | some op =>
        by_cases hread : op = .read
        · subst hread
          have hdone : completion? true ⟨bytes⟩ ⟨program, machine, stalled, .ready⟩ = none := by
            simp [completion?, moved, hop]
          rw [hdone]
          simp only [advance, cycle, hip, hop, hcell, decide_true, Bool.and_true, if_true] at moved
          cases moved
          exact .rests rfl rfl rfl (by rintro ⟨⟩) rfl
        · exact marks_of_op? hop hcell hread moved
    · simp [advance, cycle, hgo] at moved
  | fetching =>
    cases bytes with
    | nil =>
      cases stalled with
      | false =>
        cases moved
        exact .announces rfl rfl rfl rfl rfl
      | true =>
        cases moved
        exact .rests rfl rfl rfl (fun _ => ⟨rfl, rfl⟩) rfl
    | cons value rest =>
      cases moved
      exact .receives (.inl rfl) rfl rfl rfl
  | awaiting =>
    cases bytes with
    | nil =>
      cases moved
      exact .rests rfl rfl rfl (by rintro ⟨⟩) rfl
    | cons value rest =>
      cases moved
      exact .receives (.inr rfl) rfl rfl rfl
  | announcing | printing =>
    cases moved
    exact .rests rfl rfl rfl (by rintro ⟨⟩) rfl

/-- The end of a run does not call the hook. -/
theorem hookCalls_of_ended (hw : w.Sound) {r : Result}
    (moved : w.advance running queue = ⟨.ended r, queue', events⟩) : hookCalls events = 0 := by
  obtain ⟨program, machine, stalled, phase⟩ := w
  obtain ⟨bytes⟩ := queue
  cases phase with
  | ready =>
    by_cases hgo : machine.ip < program.size ∧ running = true
    · obtain ⟨hip, rfl⟩ := hgo
      obtain ⟨cell, hcell⟩ := hw.inBounds.exists_current?
      cases hop : program.op? machine.ip with
      | none => simp [advance, cycle, hip, hop] at moved
      | some op => exact hookCalls_of_op? hop hcell moved
    · simp [advance, cycle, hgo] at moved
      obtain ⟨-, -, rfl⟩ := moved
      rfl
  | fetching => cases bytes <;> cases stalled <;> cases moved
  | awaiting => cases bytes <;> cases moved
  | announcing | printing => cases moved

end Worker

/-! ## The mark of a waiting `,` -/

namespace Stage

/-- Only a `,` is marked. -/
def Marked : Stage → Prop
  | .active w => w.stalled = true → w.program.op? w.machine.ip = some .read
  | _ => True

/-- How many calls of the hook there may have been beyond the bytes that were taken. -/
def unanswered : Stage → Nat
  | .active w => w.stalled.toNat
  | .requested | .rejected | .taken | .cleared | .launching => 0
  | _ => 1

variable {program : Program} {e : Engine} {stage stage' : Stage} {events : List Event}
  {done : Option Completion}

theorem unanswered_le (stage : Stage) : stage.unanswered ≤ 1 := by
  cases stage with
  | active w => exact Bool.toNat_le w.stalled
  | requested | rejected | taken | cleared | launching => exact Nat.zero_le 1
  | _ => exact Nat.le_refl 1

theorem unanswered_of_unstarted (h : stage.unstarted = true) : stage.unanswered = 0 := by
  cases stage with
  | requested | rejected | taken | cleared | launching => rfl
  | _ => cases h

theorem unanswered_closing (r : Result) (flags : Nat) : (closing r flags).unanswered = 1 := by
  obtain _ | _ | _ := flags <;> rfl

theorem marked_of_not_active (h : ∀ w, stage ≠ .active w) : stage.Marked := by
  cases stage with
  | active w => exact absurd rfl (h w)
  | _ => trivial

/-- Only an announcement marks a `,`, and only getting a byte takes the mark away. -/
theorem Shows.marked (hw : ∀ w, stage = .active w → w.Sound)
    (h : Shows program e stage events done stage') (hmarked : stage.Marked) :
    stage'.Marked ∧ hookCalls events + stage.unanswered ≤
      (takenBytes done.toList).length + stage'.unanswered := by
  cases h with
  | @works w w' _ events moved =>
    have marks := Worker.marks_of_advance (hw w rfl) moved
    generalize w.completion? e.running e.queue = done at marks
    cases marks with
    | announces phase unmarked _ after said =>
      subst after said
      exact ⟨fun _ => (hw w rfl).atRead (.inl phase), by simp [unanswered, unmarked, hookCalls]⟩
    | receives _ _ after silent =>
      subst after
      refine ⟨nofun, ?_⟩
      rw [silent, Nat.zero_add]
      exact unanswered_le (.active w)
    | rests hprogram hmachine hmark _ silent =>
      refine ⟨fun h => ?_, by simp [unanswered, hmark, silent]⟩
      rw [hprogram, hmachine]
      exact hmarked (hmark ▸ h)
    | goes _ op _ hmark silent taken =>
      refine ⟨fun h => absurd (hmarked (hmark ▸ h)) op, by simp [unanswered, hmark, silent]⟩
  | @ends w r _ events moved =>
    refine ⟨trivial, ?_⟩
    rw [Worker.hookCalls_of_ended (hw w rfl) moved, Nat.zero_add]
    exact unanswered_le (.active w)
  | @breaks w =>
    refine ⟨trivial, ?_⟩
    rw [hookCalls_nil, Nat.zero_add]
    exact unanswered_le (.active w)
  | starts worker =>
    obtain ⟨machine, -, rfl⟩ := Worker.launch_eq_ok worker
    exact ⟨nofun, Nat.zero_le _⟩
  | falters => exact ⟨trivial, Nat.zero_le _⟩
  | prepares before after =>
    refine ⟨marked_of_not_active ?_, by simp [unanswered_of_unstarted before]⟩
    rintro w rfl
    cases after
  | @closes r flags =>
    refine ⟨marked_of_not_active fun w => (closing_ne r flags).2.2 w, ?_⟩
    simp [unanswered_closing]
  | rests => exact ⟨hmarked, by simp⟩

/-- A mark was there before the act, or the act has set it. -/
theorem Shows.of_stalled (hw : ∀ w, stage = .active w → w.Sound) {w' : Worker}
    (h : Shows program e stage events done stage') (hmarked : stage.Marked)
    (hstage : stage' = .active w') (hstalled : w'.stalled = true) :
    done = none ∧ ∃ w, stage = .active w ∧
      (w.stalled = true ∧ w.machine.ip = w'.machine.ip ∨
        w.phase = .fetching ∧ events = [.starved w'.machine.ip, .wanted]) := by
  cases h with
  | @works w _ _ events moved =>
    cases hstage
    have marks := Worker.marks_of_advance (hw w rfl) moved
    generalize w.completion? e.running e.queue = done at marks
    cases marks with
    | announces phase _ _ after said =>
      subst after
      exact ⟨rfl, w, rfl, .inr ⟨phase, said⟩⟩
    | receives _ _ after =>
      subst after
      cases hstalled
    | rests _ hmachine hmark => exact ⟨rfl, w, rfl, .inl ⟨hmark ▸ hstalled, by rw [hmachine]⟩⟩
    | goes _ hread _ hmark => exact absurd (hmarked (hmark ▸ hstalled)) hread
  | starts worker =>
    cases hstage
    obtain ⟨machine, -, rfl⟩ := Worker.launch_eq_ok worker
    cases hstalled
  | rests => exact ⟨rfl, w', hstage, .inl ⟨hstalled, rfl⟩⟩
  | prepares _ after =>
    subst hstage
    cases after
  | @closes r flags => exact absurd hstage ((closing_ne r flags).2.2 w')
  | ends | breaks | falters => cases hstage

/-- The worker's `,` is marked, or the run is over. -/
structure Held (stage : Stage) : Prop where
  started : stage.unstarted = false
  marked : ∀ w, stage = .active w → w.stalled = true ∧ w.program.op? w.machine.ip = some .read

theorem held_closing (r : Result) (flags : Nat) : (closing r flags).Held := by
  refine ⟨?_, fun w hw => absurd hw ((closing_ne r flags).2.2 w)⟩
  obtain _ | _ | _ := flags <;> rfl

/-- A `,` that has announced that it waits does not do so again, and keeps its mark until it is
completed. -/
theorem Shows.held (hw : ∀ w, stage = .active w → w.Sound)
    (h : Shows program e stage events done stage') (held : stage.Held) :
    hookCalls events = 0 ∧ (done = none → stage'.Held) := by
  cases h with
  | @works w w' _ events moved =>
    obtain ⟨hstalled, hop⟩ := held.marked w rfl
    have marks := Worker.marks_of_advance (hw w rfl) moved
    generalize w.completion? e.running e.queue = done at marks
    cases marks with
    | announces _ unmarked =>
      rw [hstalled] at unmarked
      cases unmarked
    | receives _ _ _ silent => exact ⟨silent, nofun⟩
    | rests hprogram hmachine hmark _ silent =>
      refine ⟨silent, fun _ => ⟨rfl, ?_⟩⟩
      rintro _ ⟨⟩
      rw [hprogram, hmachine, hmark]
      exact ⟨hstalled, hop⟩
    | goes _ hread => exact absurd hop hread
  | @ends w r _ events moved =>
    exact ⟨Worker.hookCalls_of_ended (hw w rfl) moved, fun _ => held_closing r 2⟩
  | breaks => exact ⟨rfl, fun _ => held_closing .crashed 2⟩
  | starts | falters => cases held.started
  | prepares before =>
    rw [held.started] at before
    cases before
  | @closes r flags => exact ⟨rfl, fun _ => held_closing r flags⟩
  | rests => exact ⟨rfl, fun _ => held⟩

end Stage

/-! ## The mark in the course of a run -/

namespace System

variable {memory index : Nat} {program : Program} {fresh s : System} {c : Call} {w : Worker}
  {acts before later : List Act}

theorem kept_marked (memory : Nat) (program : Program) :
    Kept memory program fun shown done stage =>
      stage.Marked ∧ hookCalls shown ≤ (takenBytes done).length + stage.unanswered := by
  constructor
  rintro e shown done events done' stage stage' - hwork shows ⟨hmarked, hle⟩
  obtain ⟨hmarked', hact⟩ := shows.marked (fun w hw => (hwork w hw).2.1) hmarked
  refine ⟨hmarked', ?_⟩
  rw [hookCalls_append, takenBytes_append, List.length_append]
  omega

theorem kept_held (memory : Nat) (program : Program) :
    Kept memory program fun shown done stage => done = [] → hookCalls shown = 0 ∧ stage.Held := by
  constructor
  intro e shown done events done' stage stage' _ hwork shows hheld hdone
  obtain ⟨hbefore, hnone⟩ := List.append_eq_nil_iff.mp hdone
  obtain ⟨hsilent, held⟩ := hheld hbefore
  obtain ⟨hsilent', held'⟩ := shows.held (fun w hw => (hwork w hw).2.1) held
  rw [hookCalls_append, hsilent, hsilent']
  exact ⟨rfl, held' (Option.toList_eq_nil_iff.mp hnone)⟩

theorem marked_of_call (h : System.new memory = .ok fresh)
    (hc : (fresh.after acts).calls[index]? = some c) : c.stage.Marked :=
  ((kept_marked memory c.program).always h ⟨trivial, Nat.le_refl 0⟩ acts).2 c hc rfl |>.1

/-- The hook is called at most once more often than a byte is taken. -/
theorem hookCalls_le (h : System.new memory = .ok fresh) (index : Nat)
    (before later : List Act) :
    hookCalls ((fresh.after before).shown index later) ≤
      (takenBytes ((fresh.after before).completions index later)).length + 1 := by
  induction later generalizing before with
  | nil => exact Nat.zero_le _
  | cons a later ih =>
    cases hc : (fresh.after before).calls[index]? with
    | none =>
      -- nothing is seen of the call until it is made
      obtain ⟨hshown, hdone⟩ := act_of_absent hc a
      have hlater := ih (before ++ [a])
      rw [after_append] at hlater
      rw [← List.singleton_append, shown_append, completions_append, completions_single, hshown,
        hdone]
      exact hlater
    | some c =>
      obtain ⟨stage, -, -, hle⟩ := (kept_marked memory c.program).since h hc
        ⟨marked_of_call h hc, Nat.zero_le _⟩ (a :: later)
      exact Nat.le_trans hle (Nat.add_le_add_left stage.unanswered_le _)

/-- A `,` that has announced that it waits keeps its mark until it is completed. -/
theorem held_since (h : System.new memory = .ok fresh)
    (hc : (fresh.after acts).calls[index]? = some c) (held : c.stage.Held)
    (hnone : (fresh.after acts).completions index later = []) :
    hookCalls ((fresh.after acts).shown index later) = 0 ∧
      ∃ stage, (fresh.after (acts ++ later)).calls[index]? = some { c with stage } ∧
        stage.Held := by
  obtain ⟨stage, hc', hheld⟩ :=
    (kept_held memory c.program).since h hc (fun _ => ⟨rfl, held⟩) later
  obtain ⟨hsilent, held'⟩ := hheld hnone
  exact ⟨hsilent, stage, hc', held'⟩

/-- Until it is completed, and by the act that completes it, the hook is not called again. -/
theorem silent_of_held (h : System.new memory = .ok fresh)
    (hc : (fresh.after acts).calls[index]? = some c) (held : c.stage.Held)
    (hnone : (fresh.after acts).completions index later.dropLast = []) :
    hookCalls ((fresh.after acts).shown index later) = 0 := by
  rcases List.eq_nil_or_concat later with rfl | ⟨later, a, rfl⟩
  · rfl
  · rw [List.concat_eq_append, List.dropLast_concat] at hnone
    obtain ⟨hbefore, stage, hc', held'⟩ := held_since h hc held hnone
    obtain ⟨_, -, shows⟩ := (exclusive_after h _).exists_shows hc' a
    obtain ⟨hlast, -⟩ := shows.held (fun w hw => (worker_of_call h hc' hw).2) held'
    rw [List.concat_eq_append, shown_append, hookCalls_append, hbefore, ← after_append,
      Nat.zero_add]
    exact hlast

/-! ## Looking into the queue -/

/-- Call number `index` is at a `,` and about to look into the queue. -/
def Looks (index : Nat) (s : System) : Prop :=
  ∃ w, s.stage? index = some (.active w) ∧ w.phase = .fetching

/-- Call number `index` has come to a `,` and is about to look into the queue for it for the first
time: since it has last looked it has completed an operator. -/
structure Comes (index : Nat) (fresh : System) (acts : List Act) : Prop where
  looks : (fresh.after acts).Looks index
  first : ∀ before since, acts = before ++ .advance index :: since →
    (fresh.after before).Looks index →
      (fresh.after before).completions index (.advance index :: since) ≠ []

/-- Call number `index` has announced that the `,` at this position waits, and has completed no
operator since. -/
def HasSaid (index ip : Nat) (fresh : System) (acts : List Act) : Prop :=
  ∃ before since, acts = before ++ .advance index :: since ∧ (fresh.after before).Looks index ∧
    (fresh.after before).shown index [.advance index] = [.starved ip, .wanted] ∧
    (fresh.after before).completions index (.advance index :: since) = []

theorem HasSaid.snoc {ip : Nat} (h : fresh.HasSaid index ip acts) {a : Act}
    (hnone : (fresh.after acts).completion? index a = none) :
    fresh.HasSaid index ip (acts ++ [a]) := by
  obtain ⟨before, since, rfl, looks, hsaid, hdone⟩ := h
  refine ⟨before, since ++ [a], by simp, looks, hsaid, ?_⟩
  rw [← List.cons_append, completions_append, hdone, ← after_append, completions_single, hnone]
  rfl

/-- A marked `,` was announced. -/
theorem hasSaid_of_stalled (h : System.new memory = .ok fresh) (hstalled : w.stalled = true)
    (hstage : (fresh.after acts).stage? index = some (.active w)) :
    fresh.HasSaid index w.machine.ip acts := by
  induction acts using List.reverseRecOn generalizing w with
  | nil =>
    obtain ⟨-, rfl⟩ := new_eq_ok h
    cases hstage
  | append_singleton acts a ih =>
    rw [after_append] at hstage
    obtain ⟨c', hc', hactive⟩ := exists_call_of_stage? hstage
    cases hc : (fresh.after acts).calls[index]? with
    | none =>
      rw [((fresh.after acts).acts a).stage_of_absent hc hc'] at hactive
      cases hactive
    | some c =>
      obtain ⟨stage, hnext, shows⟩ := (exclusive_after h acts).exists_shows hc a
      cases hc'.symm.trans hnext
      obtain ⟨hnone, w₀, hw₀, hbefore⟩ := shows.of_stalled
        (fun w hw => (worker_of_call h hc hw).2) (marked_of_call h hc) hactive hstalled
      have hstage₀ : (fresh.after acts).stage? index = some (.active w₀) := by
        rw [stage?_of_call hc, hw₀]
      rcases hbefore with ⟨hstalled₀, hip⟩ | ⟨hphase, hsaid⟩
      · rw [← hip]
        exact (ih hstalled₀ hstage₀).snoc hnone
      · have hown : a = .advance index := by
          by_contra hother
          rw [shown_single, if_neg hother] at hsaid
          cases hsaid
        subst hown
        refine ⟨acts, [], rfl, ⟨w₀, hstage₀, hphase⟩, hsaid, ?_⟩
        rw [completions_single, hnone]
        rfl

/-- A worker that does a piece of work. -/
theorem act_working (hstage : s.stage? index = some (.active w)) {w' : Worker} {queue : ByteQueue}
    {events : List Event}
    (moved : w.advance s.engine.running s.engine.queue = ⟨.working w', queue, events⟩) :
    s.shown index [.advance index] = events ∧
      s.completion? index (.advance index) = w.completion? s.engine.running s.engine.queue ∧
      (s.act (.advance index)).1.stage? index = some (.active w') ∧
      (s.act (.advance index)).1.engine.queue = queue := by
  obtain ⟨⟨manner, program, _⟩, hc, rfl⟩ := exists_call_of_stage? hstage
  have hlt := (Array.getElem?_eq_some_iff.mp hc).1
  have hadvance : Call.advance s.engine ⟨manner, program, .active w⟩ =
      ⟨⟨manner, program, .active w'⟩, { s.engine with queue }, events⟩ := by
    simp [Call.advance, moved]
  rw [shown_single, if_pos rfl, act_advance_eq hc, hadvance]
  refine ⟨rfl, ?_, ?_, rfl⟩
  · simp [completion?, hstage, Stage.completion?]
  · simp [stage?, hlt]

/-- A look into the empty queue marks the `,`, and says so unless it was marked before. -/
theorem act_looks_in_vain (hw : w.Sound) (hstage : s.stage? index = some (.active w))
    (hphase : w.phase = .fetching) (hempty : s.engine.queue.bytes = []) :
    s.completion? index (.advance index) = none ∧
      s.shown index [.advance index] =
        (if w.stalled then [] else [.starved w.machine.ip, .wanted]) ∧
      ∃ w', (s.act (.advance index)).1.stage? index = some (.active w') ∧
        (Stage.active w').Held := by
  have hop := hw.atRead (.inl hphase)
  have hqueue : s.engine.queue = ⟨[]⟩ := by rw [← hempty]
  obtain ⟨program, machine, stalled, phase⟩ := w
  subst hphase
  have hheld : ∀ phase, (Stage.active ⟨program, machine, true, phase⟩).Held := by
    refine fun phase => ⟨rfl, ?_⟩
    rintro _ ⟨⟩
    exact ⟨rfl, hop⟩
  cases stalled with
  | false =>
    have moved : Worker.advance s.engine.running s.engine.queue
        ⟨program, machine, false, .fetching⟩ =
        ⟨.working ⟨program, machine, true, .announcing⟩, ⟨[]⟩, [.starved machine.ip, .wanted]⟩ := by
      rw [hqueue]
      rfl
    obtain ⟨hshown, hdone, hnext, -⟩ := act_working hstage moved
    rw [hqueue] at hdone
    exact ⟨hdone, hshown, _, hnext, hheld _⟩
  | true =>
    have moved : Worker.advance s.engine.running s.engine.queue
        ⟨program, machine, true, .fetching⟩ =
        ⟨.working ⟨program, machine, true, .awaiting⟩, ⟨[]⟩, []⟩ := by
      rw [hqueue]
      rfl
    obtain ⟨hshown, hdone, hnext, -⟩ := act_working hstage moved
    rw [hqueue] at hdone
    exact ⟨hdone, hshown, _, hnext, hheld _⟩

/-- A worker that looks into the queue, or is done waiting, gets the first byte. -/
theorem act_receives (hstage : s.stage? index = some (.active w))
    (hphase : w.phase = .fetching ∨ w.phase = .awaiting) {value : UInt8} {rest : List UInt8}
    (hbytes : s.engine.queue.bytes = value :: rest) :
    s.completion? index (.advance index) =
        some ⟨w.machine.ip, some value, w.machine.accept value⟩ ∧
      s.shown index [.advance index] = [] ∧
      (s.act (.advance index)).1.stage? index = some (.active (w.receive value)) ∧
      (s.act (.advance index)).1.engine.queue.bytes = rest := by
  have hqueue : s.engine.queue = ⟨value :: rest⟩ := by rw [← hbytes]
  obtain ⟨program, machine, stalled, phase⟩ := w
  have moved : Worker.advance s.engine.running s.engine.queue ⟨program, machine, stalled, phase⟩ =
      ⟨.working (Worker.receive value ⟨program, machine, stalled, phase⟩), ⟨rest⟩, []⟩ := by
    rw [hqueue]
    rcases hphase with hphase | hphase <;> cases hphase <;> rfl
  obtain ⟨hshown, hdone, hnext, hrest⟩ := act_working hstage moved
  refine ⟨?_, hshown, hnext, by rw [hrest]⟩
  rw [hdone, hqueue]
  rcases hphase with hphase | hphase <;> cases hphase <;> rfl

/-- A look leaves a marked `,` behind, or the byte was there. -/
theorem Looks.held (h : System.new memory = .ok fresh) (looks : (fresh.after acts).Looks index)
    (hnone : (fresh.after acts).completions index [.advance index] = []) :
    ∃ c, (fresh.after (acts ++ [.advance index])).calls[index]? = some c ∧ c.stage.Held := by
  obtain ⟨w, hstage, hphase⟩ := looks
  rw [completions_single] at hnone
  cases hbytes : (fresh.after acts).engine.queue.bytes with
  | nil =>
    obtain ⟨-, -, w', hnext, held⟩ :=
      act_looks_in_vain (sound_of_stage? h hstage) hstage hphase hbytes
    obtain ⟨c, hc, hw'⟩ := exists_call_of_stage? hnext
    rw [after_append]
    exact ⟨c, hc, hw' ▸ held⟩
  | cons value rest =>
    obtain ⟨hdone, -⟩ := act_receives hstage (.inl hphase) hbytes
    rw [hdone] at hnone
    cases hnone

/-- The first look is the one at a `,` that is not marked. -/
theorem comes_iff (h : System.new memory = .ok fresh)
    (hstage : (fresh.after acts).stage? index = some (.active w)) (hphase : w.phase = .fetching) :
    fresh.Comes index acts ↔ w.stalled = false := by
  constructor
  · rintro ⟨-, first⟩
    by_contra hstalled
    obtain ⟨before, since, hacts, looks, -, hdone⟩ :=
      hasSaid_of_stalled h ((Bool.not_eq_false _).mp hstalled) hstage
    exact first before since hacts looks hdone
  · intro hunmarked
    refine ⟨⟨w, hstage, hphase⟩, ?_⟩
    rintro before since rfl looks hdone
    rw [← List.singleton_append, completions_append] at hdone
    obtain ⟨hfirst, hlater⟩ := List.append_eq_nil_iff.mp hdone
    obtain ⟨c, hc, held⟩ := looks.held h hfirst
    rw [← after_append] at hlater
    obtain ⟨-, stage, hc', held'⟩ := held_since h hc held hlater
    rw [List.append_assoc, List.singleton_append] at hc'
    obtain rfl : stage = .active w := Option.some.inj ((stage?_of_call hc').symm.trans hstage)
    obtain ⟨hstalled, -⟩ := held'.marked w rfl
    rw [hunmarked] at hstalled
    cases hstalled

/-! ## The calls of the hook -/

/-- These acts belong to one `,` that call number `index` carries out: with the first of them it
looks into the queue for it for the first time, and before the last of them it does not complete it.
-/
structure OneRead (index : Nat) (fresh : System) (before acts : List Act) : Prop where
  comes : fresh.Comes index before
  head : ∃ rest, acts = .advance index :: rest
  pending : (fresh.after before).completions index acts.dropLast = []

/-- The hook is called by a call that has come to a `,` and finds the queue empty. -/
theorem wanted_iff (h : System.new memory = .ok fresh) (a : Act) :
    .wanted ∈ (fresh.after acts).shown index [a] ↔
      a = .advance index ∧ fresh.Comes index acts ∧
        (fresh.after acts).engine.queue.bytes = [] := by
  constructor
  · intro hwanted
    have hcalls : hookCalls ((fresh.after acts).shown index [a]) ≠ 0 :=
      Nat.ne_of_gt (List.count_pos_iff.mpr hwanted)
    have hown : a = .advance index := by
      by_contra hother
      rw [shown_single, if_neg hother] at hwanted
      cases hwanted
    refine ⟨hown, ?_⟩
    cases hc : (fresh.after acts).calls[index]? with
    | none => exact absurd (by rw [(act_of_absent hc a).1]; rfl) hcalls
    | some c =>
      obtain ⟨stage, -, shows⟩ := (exclusive_after h acts).exists_shows hc a
      have hstage := stage?_of_call hc
      have hsound : ∀ w, c.stage = .active w → w.Sound := fun w hw => (worker_of_call h hc hw).2
      generalize c.stage = before at hstage hsound shows
      generalize (fresh.after acts).shown index [a] = events at hcalls shows
      generalize (fresh.after acts).completion? index a = done at shows
      cases shows with
      | @works w _ _ _ moved =>
        have marks := Worker.marks_of_advance (hsound w rfl) moved
        generalize w.completion? _ _ = done at marks
        cases marks with
        | announces phase unmarked empty =>
          exact ⟨(comes_iff h hstage phase).mpr unmarked, empty⟩
        | receives _ _ _ silent | rests _ _ _ _ silent | goes _ _ _ _ silent =>
          exact absurd silent hcalls
      | @ends w _ _ _ moved => exact absurd (Worker.hookCalls_of_ended (hsound w rfl) moved) hcalls
      | starts | breaks | falters | prepares | closes | rests => exact absurd rfl hcalls
  · rintro ⟨rfl, comes, hempty⟩
    obtain ⟨w, hstage, hphase⟩ := comes.looks
    obtain ⟨-, hshown, -⟩ :=
      act_looks_in_vain (sound_of_stage? h hstage) hstage hphase hempty
    rw [hshown, (comes_iff h hstage hphase).mp comes]
    simp

/-- While one `,` is carried out the hook is called once if its first look has found no byte, and
otherwise not at all. -/
theorem OneRead.hookCalls_eq (h : System.new memory = .ok fresh)
    (read : OneRead index fresh before acts) :
    hookCalls ((fresh.after before).shown index acts) =
      if (fresh.after before).engine.queue.bytes = [] then 1 else 0 := by
  obtain ⟨comes, ⟨rest, rfl⟩, hpending⟩ := read
  obtain ⟨w, hstage, hphase⟩ := comes.looks
  cases hbytes : (fresh.after before).engine.queue.bytes with
  | cons value more =>
    -- the `,` is completed at once, so the look is its only act
    obtain ⟨hdone, hshown, -⟩ := act_receives hstage (.inl hphase) hbytes
    cases rest with
    | nil =>
      rw [hshown]
      rfl
    | cons a rest =>
      rw [List.dropLast_cons_of_ne_nil (List.cons_ne_nil a rest), ← List.singleton_append,
        completions_append, completions_single, hdone] at hpending
      cases hpending
  | nil =>
    obtain ⟨hdone, hshown, w', hnext, held⟩ :=
      act_looks_in_vain (sound_of_stage? h hstage) hstage hphase hbytes
    rw [(comes_iff h hstage hphase).mp comes] at hshown
    have hfirst : hookCalls ((fresh.after before).shown index [.advance index]) = 1 := by
      rw [hshown]
      rfl
    obtain ⟨c, hc, hw'⟩ := exists_call_of_stage? hnext
    rw [← hw'] at held
    rw [← after_concat] at hc
    rw [← List.singleton_append, shown_append, hookCalls_append, hfirst, ← after_append]
    refine congrArg (1 + ·) (silent_of_held h hc held ?_)
    cases rest with
    | nil => rfl
    | cons a rest =>
      rw [List.dropLast_cons_of_ne_nil (List.cons_ne_nil a rest), ← List.singleton_append,
        completions_append, ← after_append] at hpending
      exact (List.append_eq_nil_iff.mp hpending).2

/-! ## A byte that comes while the hook is called -/

/-- What others do leaves a worker where it is, and no byte is taken. -/
theorem act_of_other (hs : s.Exclusive) (hstage : s.stage? index = some (.active w)) {a : Act}
    (hown : a ≠ .advance index) (hcrash : a ≠ .crash index) :
    (s.act a).1.stage? index = some (.active w) ∧
      (s.act a).1.engine.queue.bytes = s.engine.queue.bytes ++ a.pushed := by
  obtain ⟨c, hc, hw⟩ := exists_call_of_stage? hstage
  obtain ⟨stage, hc', sees⟩ := (s.acts a).sees hs hc
  rw [stage?_of_call hc', ← hw]
  by_cases hrefuse : ∃ reason, a = .refuse index reason
  · -- a thread is refused only to a call without a worker
    obtain ⟨reason, rfl⟩ := hrefuse
    obtain ⟨manner, program, _⟩ := c
    subst hw
    have hsame :
        Call.refuse reason ⟨manner, program, .active w⟩ = ⟨manner, program, .active w⟩ := by
      cases manner <;> rfl
    simp only [act, modify_eq_set _ hc, hsame] at hc' ⊢
    have hlt := (Array.getElem?_eq_some_iff.mp hc).1
    rw [Array.getElem?_setIfInBounds_self_of_lt hlt] at hc'
    cases hc'
    exact ⟨rfl, (List.append_nil _).symm⟩
  · generalize (s.act a).1.engine = e' at sees
    cases sees with
    | moves own => exact absurd own hown
    | breaks own => exact absurd (own.resolve_left hcrash) hrefuse
    | pushes other =>
      subst other
      exact ⟨rfl, rfl⟩
    | stops other =>
      subst other
      exact ⟨rfl, (List.append_nil _).symm⟩
    | others _ quiet kept =>
      rw [kept (by rw [hw]; rfl), Act.pushed_eq_nil quiet, List.append_nil]
      exact ⟨rfl, rfl⟩

theorem after_others (hs : s.Exclusive) (hstage : s.stage? index = some (.active w))
    (hown : .advance index ∉ acts) (hcrash : .crash index ∉ acts) :
    (s.after acts).stage? index = some (.active w) ∧
      (s.after acts).engine.queue.bytes = s.engine.queue.bytes ++ pushed acts := by
  induction acts generalizing s with
  | nil => exact ⟨hstage, (List.append_nil _).symm⟩
  | cons a acts ih =>
    obtain ⟨hstage', hqueue⟩ := act_of_other hs hstage
      (Ne.symm (List.ne_of_not_mem_cons hown)) (Ne.symm (List.ne_of_not_mem_cons hcrash))
    obtain ⟨hlater, hqueue'⟩ := ih (hs.acts (s.acts a)) hstage'
      (List.not_mem_of_not_mem_cons hown) (List.not_mem_of_not_mem_cons hcrash)
    rw [hqueue, List.append_assoc] at hqueue'
    exact ⟨hlater, hqueue'⟩

/-- The worker is done with the hook and takes the first byte in its next act, if there is one then,
whatever else was taken out of the queue meanwhile. -/
structure Served (index : Nat) (w : Worker) (s : System) : Prop where
  waits : s.stage? index = some (.active (w.enter .awaiting))
  takes : ∀ value rest,
    let left : System := { s with engine := { s.engine with queue := ⟨value :: rest⟩ } }
    left.completion? index (.advance index) =
        some ⟨w.machine.ip, some value, w.machine.accept value⟩ ∧
      (left.act (.advance index)).1.stage? index = some (.active (w.receive value)) ∧
      (left.act (.advance index)).1.engine.queue.bytes = rest

theorem served_after_hook (h : System.new memory = .ok fresh)
    (hstage : (fresh.after before).stage? index = some (.active w)) (hphase : w.phase = .announcing)
    {during later : List Act} (hduring : .advance index ∉ during) (hlater : .advance index ∉ later)
    (hcrash : .crash index ∉ during ++ later) :
    (fresh.after (before ++ during ++ .advance index :: later)).Served index w ∧
      (fresh.after (before ++ during ++ .advance index :: later)).engine.queue.bytes =
        (fresh.after before).engine.queue.bytes ++ pushed during ++ pushed later := by
  rw [List.mem_append, not_or] at hcrash
  obtain ⟨hinside, hpushed⟩ := after_others (exclusive_after h before) hstage hduring hcrash.1
  rw [← after_append] at hinside hpushed
  obtain ⟨program, machine, stalled, phase⟩ := w
  subst hphase
  obtain ⟨-, -, hwaits, hkept⟩ := act_working hinside rfl
  rw [← after_concat] at hwaits hkept
  obtain ⟨hwaits', hpushed'⟩ := after_others (exclusive_after h _) hwaits hlater hcrash.2
  rw [← after_append, hkept, hpushed] at hpushed'
  rw [← after_append] at hwaits'
  rw [List.append_assoc _ [_], List.singleton_append] at hwaits' hpushed'
  refine ⟨⟨hwaits', ?_⟩, hpushed'⟩
  intro value rest left
  have hleft : left.stage? index = some (.active ⟨program, machine, stalled, .awaiting⟩) := hwaits'
  obtain ⟨hdone, -, hnext, hrest⟩ := act_receives hleft (.inr rfl) rfl
  exact ⟨hdone, hnext, hrest⟩

/-- The rules for the calls of the input-wanted hook by call number `index`. -/
structure CallsHook (index : Nat) (fresh : System) : Prop where
  /-- The hook is called when the call has come to a `,`, looks for a byte for the first time and
  finds none. -/
  called_iff : ∀ before a, .wanted ∈ (fresh.after before).shown index [a] ↔
    a = .advance index ∧ fresh.Comes index before ∧
      (fresh.after before).engine.queue.bytes = []
  /-- While one `,` is carried out, however often it looks again, the hook is called once if the
  first look has found no byte, and otherwise not at all. -/
  once : ∀ {before acts}, OneRead index fresh before acts →
    hookCalls ((fresh.after before).shown index acts) =
      if (fresh.after before).engine.queue.bytes = [] then 1 else 0
  /-- What is marked is a `,` that has been announced, and no operator was completed since. -/
  marked : ∀ {acts w}, (fresh.after acts).stage? index = some (.active w) → w.stalled = true →
    w.program.op? w.machine.ip = some .read ∧ fresh.HasSaid index w.machine.ip acts
  /-- In any stretch of time the hook is called at most once more often than a byte is taken. -/
  bounded : ∀ before acts, hookCalls ((fresh.after before).shown index acts) ≤
    (takenBytes ((fresh.after before).completions index acts)).length + 1
  /-- Between two calls of the hook a byte is taken. -/
  apart : ∀ {before since}, .wanted ∈ (fresh.after before).shown index [.advance index] →
    .wanted ∈ (fresh.after (before ++ .advance index :: since)).shown index [.advance index] →
    takenBytes ((fresh.after before).completions index (.advance index :: since)) ≠ []
  /-- Let the call be inside the hook, and let anything happen until the hook returns and until the
  call then acts again, other than that the hook breaks off: the `,` takes the first of the bytes
  that are there then, in the same cycle. What is pushed meanwhile is among them, unless another
  reader takes it out of the queue. -/
  served : ∀ {before during later w}, (fresh.after before).stage? index = some (.active w) →
    w.phase = .announcing → .advance index ∉ during → .advance index ∉ later →
    .crash index ∉ during ++ later →
    (fresh.after (before ++ during ++ .advance index :: later)).Served index w ∧
      (fresh.after (before ++ during ++ .advance index :: later)).engine.queue.bytes =
        (fresh.after before).engine.queue.bytes ++ pushed during ++ pushed later

/-- The input-wanted hook is called once for each `,` that has to wait. Whatever is pushed, by
whomever and when, whoever asks for stops, and however often a `,` looks into the queue in vain: the
hook is called when a `,` looks for the first time and finds no byte, and not again until it has its
byte or the run is over; where a `,` is marked as waiting, it was announced and nothing was
completed since; between two calls a byte is taken; and a byte that is there after the hook has
returned goes to the `,` that has called it, in the same cycle. -/
theorem hook_is_called_once_per_wait (h : System.new memory = .ok fresh) (index : Nat) :
    CallsHook index fresh where
  called_iff before a := wanted_iff h a
  once read := read.hookCalls_eq h
  marked := by
    intro acts w hstage hstalled
    obtain ⟨c, hc, hw⟩ := exists_call_of_stage? hstage
    have hmarked := marked_of_call h hc
    rw [hw] at hmarked
    exact ⟨hmarked hstalled, hasSaid_of_stalled h hstalled hstage⟩
  bounded := hookCalls_le h index
  apart := by
    intro before since hfirst hsecond hnone
    obtain ⟨-, comes, hempty⟩ := (wanted_iff h _).mp hsecond
    obtain ⟨w, hstage, hphase⟩ := comes.looks
    obtain ⟨hdone, -⟩ := act_looks_in_vain (sound_of_stage? h hstage) hstage hphase hempty
    have hbound := hookCalls_le h index before (.advance index :: since ++ [.advance index])
    rw [shown_append, completions_append, ← after_append, completions_single, hdone,
      Option.toList_none, List.append_nil, hnone, hookCalls_append] at hbound
    have hfirst' : 0 < hookCalls ((fresh.after before).shown index (.advance index :: since)) := by
      rw [← List.singleton_append, shown_append]
      exact List.count_pos_iff.mpr (List.mem_append_left _ hfirst)
    have hsecond' : 0 < hookCalls _ := List.count_pos_iff.mpr hsecond
    have hlength : ([] : List UInt8).length = 0 := rfl
    omega
  served hstage hphase hduring hlater hcrash :=
    served_after_hook h hstage hphase hduring hlater hcrash

/-- A `,` that looks into the queue in two cycles, and then gets its byte. -/
theorem hook_is_called_once_per_wait_of_two_looks :
    let program : Program := .ofChars [',', ',']
    let fresh : System := ⟨⟨1, .empty, false, false⟩, #[]⟩
    let before : List Act := .call .run program :: List.replicate 5 (.advance 0)
    let acts : List Act := List.replicate 6 (.advance 0) ++
      [.push [], .push [7, 8], .advance 0, .advance 0]
    System.new 1 = .ok fresh ∧ OneRead 0 fresh before acts ∧
      takenBytes ((fresh.after before).completions 0 acts) = [7] ∧
      hookCalls ((fresh.after before).shown 0 acts) = 1 := by
  intro program fresh before acts
  have new : System.new 1 = .ok fresh := rfl
  have rules := hook_is_called_once_per_wait new 0
  have wanted : .wanted ∈ (fresh.after before).shown 0 [.advance 0] := by decide
  have empty : (fresh.after before).engine.queue.bytes = [] := by decide
  obtain ⟨-, comes, -⟩ := (rules.called_iff before (.advance 0)).mp wanted
  have read : OneRead 0 fresh before acts := ⟨comes, ⟨_, rfl⟩, by decide⟩
  have calls := rules.once read
  rw [if_pos empty] at calls
  exact ⟨new, read, by decide, calls⟩

end System

end Brainfuck
