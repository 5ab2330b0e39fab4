import Brainfuck.Proofs.Delivery

/-!
# With the running flag down

A worker looks at the running flag at the head of each cycle and nowhere else. So when it is down,
what the worker still does is the rest of the cycle in flight, and in that only a `,` can be without
its byte: any other operator is carried out in the act that has looked at the flag. `Worker.Halts`
lists these pieces of work, and `Phase.left` counts how many there can be.

The flag of a run that was stopped stays down, since only a call that is about to launch sets it and
nobody else owns the engine meanwhile. `System.Stopped` says so together with where the call can be
by then and with which results, and is kept by every act (`Stopped.act`, `Stopped.after`).
-/

namespace Brainfuck

/-- How many acts a worker in this phase has before it at most once the running flag is down, those
included that take back the flags. -/
def Phase.left : Phase → Nat
  | .ready => 3
  | .printing => 4
  | .awaiting => 4
  | .announcing => 5
  | .fetching => 6

theorem Phase.left_le (phase : Phase) : phase.left ≤ 6 := by
  cases phase <;> decide

theorem Phase.two_lt_left (phase : Phase) : 2 < phase.left := by
  cases phase <;> decide

/-! ## A worker that sees the flag down -/

namespace Worker

/-- What a piece of work does when the running flag is down: what is left of the cycle in flight, in
which at most a `,` gets its byte, and at the head of the next cycle the end of the run. -/
inductive Halts (queue : ByteQueue) (w : Worker) : Advance → Option Completion → Prop where
  | rests {w' : Worker} {events : List Event} (program : w'.program = w.program)
      (machine : w'.machine = w.machine) (inside : w'.Fetches → w.Fetches)
      (sooner : w'.phase.left < w.phase.left) (silent : ∀ e ∈ events, e.isStep = false) :
      Halts queue w ⟨.working w', queue, events⟩ none
  | receives {value : UInt8} {rest : List UInt8} (inside : w.Fetches)
      (waiting : queue.bytes = value :: rest) (sooner : Phase.ready.left < w.phase.left) :
      Halts queue w ⟨.working (w.receive value), ⟨rest⟩, []⟩
        (some ⟨w.machine.ip, some value, w.machine.accept value⟩)
  | ends {events : List Event} (silent : ∀ e ∈ events, e.isStep = false) :
      Halts queue w ⟨.ended (.done (w.machine.outcome w.program)), queue, events⟩ none

theorem advance_halts (queue : ByteQueue) (w : Worker) :
    w.Halts queue (w.advance false queue) (w.completion? false queue) := by
  obtain ⟨program, machine, stalled, phase⟩ := w
  obtain ⟨bytes⟩ := queue
  cases phase with
  | ready =>
    have hadvance : advance false ⟨bytes⟩ ⟨program, machine, stalled, .ready⟩ =
        ⟨.ended (.done (machine.outcome program)), ⟨bytes⟩,
          [.finished (machine.outcome program).termination machine.ip
            (machine.outcome program).output.size]⟩ := by
      simp [advance, cycle]
    have hdone : completion? false ⟨bytes⟩ ⟨program, machine, stalled, .ready⟩ = none := by
      simp [completion?, hadvance]
    rw [hadvance, hdone]
    exact .ends (by simp [Event.isStep])
  | fetching =>
    cases bytes with
    | nil =>
      cases stalled with
      | false =>
        exact .rests rfl rfl (fun _ => .inl rfl) (show 5 < 6 by omega) (by simp [Event.isStep])
      | true => exact .rests rfl rfl (fun _ => .inl rfl) (show 4 < 6 by omega) (by simp)
    | cons value rest => exact .receives (.inl rfl) rfl (show 3 < 6 by omega)
  | announcing => exact .rests rfl rfl (fun _ => .inr (.inl rfl)) (show 4 < 5 by omega) (by simp)
  | awaiting =>
    cases bytes with
    | nil => exact .rests rfl rfl (fun _ => .inr (.inr rfl)) (show 3 < 4 by omega) (by simp)
    | cons value rest => exact .receives (.inr (.inr rfl)) rfl (show 3 < 4 by omega)
  | printing =>
    exact .rests rfl rfl (fun h => absurd h (not_fetches (.inl rfl))) (show 3 < 4 by omega)
      (by simp)

theorem halts_of_eq {queue : ByteQueue} {w : Worker} {running : Bool} {moved : Advance}
    (hrunning : running = false) (h : w.advance running queue = moved) :
    w.Halts queue moved (w.completion? running queue) := by
  subst hrunning
  exact h ▸ advance_halts queue w

end Worker

/-! ## A call after a stop -/

namespace Stage

/-- How many acts a call at this stage has before it at most once the running flag is down. -/
def left : Stage → Nat
  | .launching => 4
  | .active w => w.phase.left
  | .lowering _ => 2
  | .releasing _ => 1
  | _ => 0

/-- The machine that a run stands at, which is the first one before its program starts. -/
def standsAt (memory : Nat) : Stage → Option Machine
  | .launching => (Machine.start memory).toOption
  | .active w => some w.machine
  | _ => none

/-- The operators that a run still completes when a stop finds it at this stage: none, or the `,`
that it is inside. -/
inductive InFlight : Stage → List Completion → Prop where
  | none {stage : Stage} : InFlight stage []
  | read {w : Worker} {value : UInt8} (inside : w.Fetches) :
      InFlight (.active w) [⟨w.machine.ip, some value, w.machine.accept value⟩]

/-- The results that a run can still have when a stop finds it at this stage, and it completes these
operators while these acts happen: its own if it is over, and otherwise what the machine holds that
it stands at, unless it gets no thread or breaks off. -/
inductive Verdict (memory : Nat) (program : Program) (index : Nat) (stage : Stage)
    (later : List Act) (done : List Completion) : Result → Prop where
  | ended {r : Result} (lowering : stage = .lowering r) :
      Verdict memory program index stage later done r
  | halted {m : Machine} (stands : stage.standsAt memory = some m) :
      Verdict memory program index stage later done (.done ((lastMachine m done).outcome program))
  | refused {reason : String} (launching : stage = .launching)
      (broken : ∃ a ∈ later, a.BreaksOff index) :
      Verdict memory program index stage later done (.failed (.noThread reason))
  | crashed (broken : ∃ a ∈ later, a.BreaksOff index) :
      Verdict memory program index stage later done .crashed

theorem Verdict.append {memory : Nat} {program : Program} {index : Nat} {stage : Stage}
    {later : List Act} {done : List Completion} {r : Result}
    (h : Verdict memory program index stage later done r) (more : List Act) :
    Verdict memory program index stage (later ++ more) done r := by
  have longer : (∃ a ∈ later, a.BreaksOff index) → ∃ a ∈ later ++ more, a.BreaksOff index :=
    fun ⟨a, ha, hbreaks⟩ => ⟨a, List.mem_append_left _ ha, hbreaks⟩
  cases h with
  | ended lowering => exact .ended lowering
  | halted stands => exact .halted stands
  | refused launching broken => exact .refused launching (longer broken)
  | crashed broken => exact .crashed (longer broken)

/-- Where a call is that a stop has found at the stage `found`, when since then these acts have
happened and it has completed these operators. -/
def WindsDown (memory : Nat) (program : Program) (index : Nat) (found : Stage) (later : List Act)
    (done : List Completion) : Stage → Prop
  | .launching => found = .launching ∧ done = []
  | .active w => w.program = program ∧
    (w.Fetches → done = [] ∧ ∃ w₀, found = .active w₀ ∧ w₀.Fetches) ∧
    ∃ m, found.standsAt memory = some m ∧ w.machine = lastMachine m done
  | .lowering r | .releasing r | .returned r => Verdict memory program index found later done r
  | _ => False

theorem WindsDown.append {memory : Nat} {program : Program} {index : Nat} {found stage : Stage}
    {later : List Act} {done : List Completion}
    (h : WindsDown memory program index found later done stage) (more : List Act) :
    WindsDown memory program index found (later ++ more) done stage := by
  cases stage with
  | launching | active w => exact h
  | lowering r | releasing r | returned r => exact Verdict.append h more
  | _ => cases h

/-- A call winds down in an engine whose running flag is down, and has so many acts before it at
most. -/
structure Stopped (program : Program) (index : Nat) (found : Stage) (later : List Act)
    (done : List Completion) (left : Nat) (e : Engine) (stage : Stage) : Prop where
  winds : WindsDown e.memory program index found later done stage
  in_flight : found.InFlight done
  left_le : stage.left ≤ left
  down : stage.owns = true → e.running = false

namespace Stopped

variable {index left : Nat} {program : Program} {found stage stage' : Stage} {later : List Act}
  {done : List Completion} {e e' : Engine}

theorem of_raised (hraised : stage.raised = true)
    (hprogram : ∀ w, stage = .active w → w.program = program) (hrunning : e.running = false) :
    Stopped program index stage [] [] 6 e stage := by
  refine ⟨?_, .none, ?_, fun _ => hrunning⟩
  · cases stage with
    | launching => exact ⟨rfl, rfl⟩
    | active w => exact ⟨hprogram w rfl, fun h => ⟨rfl, w, rfl, h⟩, _, rfl, rfl⟩
    | lowering r => exact .ended rfl
    | _ => cases hraised
  · cases stage with
    | active w => exact w.phase.left_le
    | _ => simp [Stage.left]

/-- Nothing but the memory and the running flag of the engine is of account, and the flag only to the
owner. -/
theorem of_engine (h : Stopped program index found later done left e stage)
    (hmemory : e'.memory = e.memory) (hrunning : stage.owns = true → e'.running = false)
    (a : Act) : Stopped program index found (later ++ [a]) done left e' stage :=
  ⟨hmemory ▸ h.winds.append [a], h.in_flight, h.left_le, hrunning⟩

theorem breaks {a : Act} (own : a.BreaksOff index)
    (h : Stopped program index found later done left e stage) (broken : stage.Breaks stage') :
    Stopped program index found (later ++ [a]) done left e stage' := by
  have hbroken : ∃ a' ∈ later ++ [a], a'.BreaksOff index :=
    ⟨a, List.mem_append_right _ (List.mem_singleton_self a), own⟩
  have hdown : stage'.owns = true → e.running = false :=
    fun howns => h.down (broken.owns_eq ▸ howns)
  cases broken with
  | refused =>
    exact ⟨.refused h.winds.1 hbroken, h.in_flight, Nat.le_trans (by simp [Stage.left]) h.left_le,
      hdown⟩
  | roomless =>
    exact ⟨.crashed hbroken, h.in_flight, Nat.le_trans (by simp [Stage.left]) h.left_le, hdown⟩
  | @hook w =>
    exact ⟨.crashed hbroken, h.in_flight,
      Nat.le_trans (Nat.le_of_lt w.phase.two_lt_left) h.left_le, hdown⟩
  | rests => exact h.of_engine rfl hdown a

theorem moves {origin : Machine} (hstart : Machine.start e.memory = .ok origin)
    (h : Stopped program index found later done left e stage)
    (move : stage.Moves program e e' stage') :
    Stopped program index found later (done ++ (stage.completion? e).toList) (left - 1) e'
      stage' := by
  obtain ⟨hwinds, hflight, hleft, hdown⟩ := h
  -- only a worker completes operators
  have idle : ∀ {e' : Engine} {stage' : Stage}, stage.completion? e = none →
      WindsDown e'.memory program index found later done stage' →
      stage'.left < stage.left → (stage'.owns = true → e'.running = false) →
      Stopped program index found later (done ++ (stage.completion? e).toList) (left - 1) e'
        stage' := by
    intro e' stage' hnone hwinds' hsooner hdown'
    rw [hnone, Option.toList_none, List.append_nil]
    exact ⟨hwinds', hflight, by omega, hdown'⟩
  cases move with
  | @starts w worker =>
    obtain ⟨rfl, rfl⟩ := hwinds
    obtain ⟨m, hm, rfl⟩ := Worker.launch_eq_ok worker
    have hstands : Stage.launching.standsAt e.memory = some m := by rw [standsAt, hm]; rfl
    exact idle rfl ⟨rfl, fun hf => absurd hf (Worker.not_fetches (.inl rfl)), m, hstands, rfl⟩
      (Nat.lt_succ_self 3) hdown
  | falters worker =>
    unfold Worker.launch at worker
    rw [hstart] at worker
    cases worker
  | @works w w' queue events moved =>
    obtain ⟨rfl, hfetches, m, hstands, hmachine⟩ := hwinds
    have halts := Worker.halts_of_eq (hdown rfl) moved
    simp only [Stage.left] at hleft
    simp only [completion?]
    generalize w.completion? e.running e.queue = done' at halts ⊢
    cases halts with
    | rests hprogram hmachine' inside sooner =>
      rw [Option.toList_none, List.append_nil]
      refine ⟨⟨hprogram, fun hf => hfetches (inside hf), m, hstands, hmachine'.trans hmachine⟩,
        hflight, ?_, hdown⟩
      simp only [Stage.left]
      omega
    | receives inside waiting sooner =>
      -- it is still in the cycle that the stop has found, so this is the first operator since
      obtain ⟨rfl, w₀, rfl, hinside⟩ := hfetches inside
      obtain rfl : w₀.machine = m := Option.some.inj hstands
      rw [lastMachine] at hmachine
      rw [hmachine]
      refine ⟨⟨rfl, fun hf => absurd hf (Worker.not_fetches (.inl rfl)), _, rfl, ?_⟩,
        .read hinside, ?_, hdown⟩
      · rw [← hmachine]; rfl
      · exact Nat.le_sub_one_of_lt (Nat.lt_of_lt_of_le sooner hleft)
  | @ends w r queue events moved =>
    obtain ⟨rfl, -, m, hstands, hmachine⟩ := hwinds
    have halts := Worker.halts_of_eq (hdown rfl) moved
    simp only [completion?]
    generalize w.completion? e.running e.queue = done' at halts ⊢
    cases halts with
    | ends =>
      rw [Option.toList_none, List.append_nil, hmachine]
      exact ⟨.halted hstands, hflight,
        Nat.le_sub_one_of_lt (Nat.lt_of_lt_of_le w.phase.two_lt_left hleft), hdown⟩
  | lowers => exact idle rfl hwinds (Nat.lt_succ_self 1) fun _ => rfl
  | releases => exact idle rfl hwinds Nat.zero_lt_one fun howns => by cases howns
  | returned =>
    simp only [completion?, Option.toList_none, List.append_nil]
    exact ⟨hwinds, hflight, Nat.zero_le _, fun howns => by cases howns⟩
  -- a call that has not set the flag was not found by the stop
  | rejects | takes | clears | raises | rejected => cases hwinds

end Stopped

end Stage

/-- What an act leaves of a call that was stopped. -/
theorem Call.Sees.stopped {index left : Nat} {c : Call} {e e' : Engine} {a : Act}
    {found stage : Stage} {later : List Act} {done : List Completion} {origin : Machine}
    (hstart : Machine.start e.memory = .ok origin) (hmemory : e'.memory = e.memory)
    (h : Stage.Stopped c.program index found later done left e c.stage)
    (sees : c.Sees index e a e' stage) :
    Stage.Stopped c.program index found (later ++ [a])
      (done ++ if a = .advance index then (c.stage.completion? e).toList else [])
      (left - if a = .advance index then 1 else 0) e' stage := by
  cases sees with
  | moves own move =>
    rw [if_pos own, if_pos own]
    have hmoved := h.moves hstart move
    exact hmoved.of_engine rfl hmoved.down a
  | breaks own broken =>
    rw [if_neg (own.ne_advance index), if_neg (own.ne_advance index), List.append_nil]
    exact h.breaks own broken
  | pushes other =>
    rw [if_neg (by simp [other]), if_neg (by simp [other]), List.append_nil]
    exact h.of_engine hmemory h.down a
  | stops other =>
    rw [if_neg (by simp [other]), if_neg (by simp [other]), List.append_nil]
    exact h.of_engine hmemory (fun _ => rfl) a
  | others own quiet kept =>
    rw [if_neg own, if_neg own, List.append_nil]
    refine h.of_engine hmemory (fun howns => ?_) a
    rw [kept howns]
    exact h.down howns

/-- A call that finds the running flag down, or has no worker, reaches no operator. -/
theorem Call.isStep_of_advance {e : Engine} {c : Call}
    (hdown : ∀ w, c.stage = .active w → e.running = false) :
    ∀ event ∈ (c.advance e).events, event.isStep = false := by
  obtain ⟨manner, program, stage⟩ := c
  cases stage with
  | launching =>
    cases hlaunch : Worker.launch program e.memory <;> simp [advance, hlaunch, Event.isStep]
  | active w =>
    have halts : w.Halts e.queue (w.advance e.running e.queue) _ :=
      Worker.halts_of_eq (hdown w rfl) rfl
    generalize w.completion? e.running e.queue = done at halts
    cases hmoved : w.advance e.running e.queue with
    | mk progress queue events =>
      have hevents : (advance e ⟨manner, program, .active w⟩).events = events := by
        cases progress <;> simp [advance, hmoved]
      rw [hmoved] at halts
      rw [hevents]
      cases halts with
      | rests _ _ _ _ silent => exact silent
      | receives =>
        intro event hevent
        cases hevent
      | ends silent => exact silent
  | requested => cases hbusy : e.busy <;> simp [advance, hbusy]
  | _ =>
    intro event hevent
    cases hevent

namespace System

theorem isStep_of_act {s : System} {index : Nat}
    (hdown : ∀ w, s.stage? index = some (.active w) → s.engine.running = false) :
    ∀ event ∈ (s.act (.advance index)).2, event.isStep = false := by
  cases hc : s.calls[index]? with
  | none =>
    rw [act_advance_absent hc]
    nofun
  | some c =>
    rw [act_advance_eq hc]
    exact Call.isStep_of_advance fun w hw => hdown w (hw ▸ stage?_of_call hc)

/-- Call number `index` winds down after a stop. -/
structure Stopped (memory : Nat) (program : Program) (index : Nat) (found : Stage)
    (later : List Act) (done : List Completion) (left : Nat) (s : System) : Prop where
  exclusive : s.Exclusive
  memory_eq : s.engine.memory = memory
  call : ∃ c, s.calls[index]? = some c ∧ c.program = program ∧
    Stage.Stopped program index found later done left s.engine c.stage

namespace Stopped

variable {memory index left : Nat} {program : Program} {found : Stage} {later : List Act}
  {done : List Completion} {s : System}

/-- The running flag stays down as long as the call owns the engine. -/
theorem down (h : s.Stopped memory program index found later done left) (howns : s.Owns index) :
    s.engine.running = false := by
  obtain ⟨c, hc, -, hstopped⟩ := h.call
  exact hstopped.down ((inStage_call hc _).mp howns)

theorem act (hmemory : memory ≠ 0)
    (h : s.Stopped memory program index found later done left) (a : Act) :
    (s.act a).1.Stopped memory program index found (later ++ [a])
      (done ++ (s.completion? index a).toList) (left - if a = .advance index then 1 else 0) := by
  obtain ⟨hexclusive, rfl, c, hc, rfl, hstopped⟩ := h
  have hacts := s.acts a
  obtain ⟨stage, hc', sees⟩ := hacts.sees hexclusive hc
  have hstart : Machine.start s.engine.memory =
      .ok ⟨⟨Array.replicate s.engine.memory 0, 0⟩, #[], 0⟩ := by
    simp [Machine.start, Tape.blank, hmemory]
  refine ⟨hexclusive.acts hacts, hacts.memory_eq, _, hc', rfl, ?_⟩
  rw [completion?_of_call hc]
  exact sees.stopped hstart hacts.memory_eq hstopped

theorem after (hmemory : memory ≠ 0)
    (h : s.Stopped memory program index found later done left) (acts : List Act) :
    (s.after acts).Stopped memory program index found (later ++ acts)
      (done ++ s.completions index acts) (left - acts.count (.advance index)) := by
  induction acts generalizing s later done left with
  | nil => simpa [completions] using h
  | cons a acts ih =>
    have hafter := ih (h.act hmemory a)
    rw [List.append_assoc, List.append_assoc, Nat.sub_sub] at hafter
    rw [Act.count_advance_cons]
    exact hafter

theorem idle (hmemory : memory ≠ 0)
    (h : s.Stopped memory program index found later done left) (acts : List Act) :
    ∀ event ∈ s.shown index acts, event.isStep = false := by
  induction acts generalizing s later done left with
  | nil => nofun
  | cons a acts ih =>
    intro event hevent
    rw [shown_cons] at hevent
    rcases List.mem_append.mp hevent with hfirst | hlater
    · by_cases ha : a = .advance index
      · rw [if_pos ha, ha] at hfirst
        exact isStep_of_act (fun w hw => h.down ⟨_, hw, rfl⟩) event hfirst
      · rw [if_neg ha] at hfirst
        cases hfirst
    · exact ih (h.act hmemory a) event hlater

/-- Only the `,` that the stop has found in flight has changed the machine. -/
theorem stands (h : s.Stopped memory program index found later done left) {m : Machine}
    (hm : s.machine? index = some m) :
    ∃ m₀, found.standsAt memory = some m₀ ∧ m = lastMachine m₀ done := by
  obtain ⟨-, rfl, c, hc, -, hwinds, -⟩ := h
  rw [machine?, hc, Option.bind_some] at hm
  unfold Call.machine? at hm
  split at hm
  · next w hw =>
    cases hm
    rw [hw] at hwinds
    exact hwinds.2.2
  · cases hm

/-- A call with two acts before it at most has only its flags to take back. -/
theorem closing (h : s.Stopped memory program index found later done left) (hleft : left ≤ 2) :
    ∃ r flags, flags ≤ left ∧ s.stage? index = some (.closing r flags) := by
  obtain ⟨-, -, c, hc, -, hwinds, -, hle, -⟩ := h
  rw [stage?_of_call hc]
  generalize c.stage = stage at hwinds hle
  cases stage with
  | lowering r => exact ⟨r, 2, hle, rfl⟩
  | releasing r => exact ⟨r, 1, hle, rfl⟩
  | returned r => exact ⟨r, 0, Nat.zero_le _, rfl⟩
  | launching => exact absurd (Nat.le_trans hle hleft) (by decide)
  | active w => exact absurd (Nat.le_trans hle hleft) (Nat.not_le.mpr w.phase.two_lt_left)
  | requested | rejected | taken | cleared => cases hwinds

theorem verdict (h : s.Stopped memory program index found later done left) {r : Result}
    (hr : s.result? index = some r) :
    found.Verdict memory program index later done r ∧ s.stage? index = some (.closing r 0) := by
  obtain ⟨-, rfl, c, hc, -, hwinds, -⟩ := h
  rw [result?_eq, stage?_of_call hc] at hr
  rw [stage?_of_call hc]
  generalize c.stage = stage at hr hwinds
  cases stage with
  | returned r' => cases hr; exact ⟨hwinds, rfl⟩
  | rejected => cases hwinds
  | _ => cases hr

end Stopped

end System

end Brainfuck
