import Brainfuck.Engine.System

/-!
# Schedules

The cases of one act. `Stage.Moves` lists what the next action of a call does to its stage and to
the engine, with the condition under which it does it, and `Stage.Breaks` in which ways a call can
break off; `System.Acts` lists what an act does to the whole system. Every later proof about
schedules takes an act apart with `System.acts` and never opens `System.act` itself.

`System.after` is the system after a schedule, and `System.collect` gathers what a schedule shows
act by act. Both go through a schedule in parts.
-/

namespace Brainfuck

/-- What the next action of a call of the program does to its stage and to the engine. The last two
are of calls that have come to their end and do nothing any more. -/
inductive Stage.Moves (program : Program) (e : Engine) : Stage → Engine → Stage → Prop where
  | rejects (busy : e.busy = true) : Moves program e .requested e .rejected
  | takes (free : e.busy = false) : Moves program e .requested { e with busy := true } .taken
  | clears : Moves program e .taken { e with queue := e.queue.clear } .cleared
  | raises : Moves program e .cleared { e with running := true } .launching
  | starts {w : Worker} (worker : Worker.launch program e.memory = .ok w) :
      Moves program e .launching e (.active w)
  | falters {cause : Fault} (worker : Worker.launch program e.memory = .error cause) :
      Moves program e .launching e (.lowering (.failed cause))
  | works {w w' : Worker} {queue : ByteQueue} {events : List Event}
      (moved : w.advance e.running e.queue = ⟨.working w', queue, events⟩) :
      Moves program e (.active w) { e with queue } (.active w')
  | ends {w : Worker} {r : Result} {queue : ByteQueue} {events : List Event}
      (moved : w.advance e.running e.queue = ⟨.ended r, queue, events⟩) :
      Moves program e (.active w) { e with queue } (.lowering r)
  | lowers {r : Result} : Moves program e (.lowering r) { e with running := false } (.releasing r)
  | releases {r : Result} : Moves program e (.releasing r) { e with busy := false } (.returned r)
  | rejected : Moves program e .rejected e .rejected
  | returned {r : Result} : Moves program e (.returned r) e (.returned r)

/-- How a call can break off: before its program starts it is refused a thread or there is no room
for the cells, and later the hook that its worker is in breaks off. At other times nothing
happens. -/
inductive Stage.Breaks : Stage → Stage → Prop where
  | refused {reason : String} : Breaks .launching (.lowering (.failed (.noThread reason)))
  | roomless : Breaks .launching (.lowering .crashed)
  | hook {w : Worker} (inside : w.inHook = true) : Breaks (.active w) (.lowering .crashed)
  | rests {stage : Stage} : Breaks stage stage

theorem Stage.Moves.memory_eq {program : Program} {e e' : Engine} {stage stage' : Stage}
    (h : Stage.Moves program e stage e' stage') : e'.memory = e.memory := by
  cases h <;> rfl

/-- Only a call that empties the queue and one whose program is carried out touch the queue. -/
theorem Stage.Moves.queue_eq {program : Program} {e e' : Engine} {stage stage' : Stage}
    (h : Stage.Moves program e stage e' stage') :
    stage = .taken ∨ (∃ w, stage = .active w) ∨ e'.queue = e.queue := by
  cases h with
  | clears => exact .inl rfl
  | works | ends => exact .inr (.inl ⟨_, rfl⟩)
  | _ => exact .inr (.inr rfl)

theorem Call.advance_moves (e : Engine) (c : Call) :
    ∃ stage, (c.advance e).call = { c with stage } ∧
      Stage.Moves c.program e c.stage (c.advance e).engine stage := by
  obtain ⟨manner, program, stage⟩ := c
  cases stage with
  | requested =>
    cases hbusy : e.busy with
    | false =>
      exact ⟨.taken, by simp [advance, hbusy], by simpa [advance, hbusy] using .takes hbusy⟩
    | true =>
      exact ⟨.rejected, by simp [advance, hbusy], by simpa [advance, hbusy] using .rejects hbusy⟩
  | rejected => exact ⟨.rejected, rfl, .rejected⟩
  | taken => exact ⟨.cleared, rfl, .clears⟩
  | cleared => exact ⟨.launching, rfl, .raises⟩
  | launching =>
    cases hlaunch : Worker.launch program e.memory with
    | ok w =>
      exact ⟨.active w, by simp [advance, hlaunch],
        by simpa [advance, hlaunch] using .starts hlaunch⟩
    | error cause =>
      exact ⟨.lowering (.failed cause), by simp [advance, hlaunch],
        by simpa [advance, hlaunch] using .falters hlaunch⟩
  | active w =>
    cases hmoved : w.advance e.running e.queue with
    | mk progress queue events =>
      cases progress with
      | working w' =>
        exact ⟨.active w', by simp [advance, hmoved],
          by simpa [advance, hmoved] using .works hmoved⟩
      | ended r =>
        exact ⟨.lowering r, by simp [advance, hmoved],
          by simpa [advance, hmoved] using .ends hmoved⟩
  | lowering r => exact ⟨.releasing r, rfl, .lowers⟩
  | releasing r => exact ⟨.returned r, rfl, .releases⟩
  | returned r => exact ⟨.returned r, rfl, .returned⟩

theorem Call.refuse_breaks (reason : String) (c : Call) :
    ∃ stage, c.refuse reason = { c with stage } ∧ c.stage.Breaks stage := by
  unfold refuse
  split
  · next hmanner hstage =>
    refine ⟨_, rfl, ?_⟩
    rw [hstage]
    exact .refused
  · exact ⟨c.stage, rfl, .rests⟩

theorem Call.crash_breaks (c : Call) :
    ∃ stage, c.crash = { c with stage } ∧ c.stage.Breaks stage := by
  unfold crash
  split
  · next hstage =>
    refine ⟨_, rfl, ?_⟩
    rw [hstage]
    exact .roomless
  · next w hstage =>
    split
    · next hhook =>
      refine ⟨_, rfl, ?_⟩
      rw [hstage]
      exact .hook hhook
    · exact ⟨c.stage, rfl, .rests⟩
  · exact ⟨c.stage, rfl, .rests⟩

/-- Call number `index` is refused a thread or breaks off. -/
def Act.BreaksOff (index : Nat) (a : Act) : Prop :=
  a = .crash index ∨ ∃ reason, a = .refuse index reason

theorem Act.BreaksOff.ne_advance {a : Act} {index : Nat} (h : a.BreaksOff index) (i : Nat) :
    a ≠ .advance i := by
  rcases h with rfl | ⟨reason, rfl⟩ <;> simp

theorem Act.BreaksOff.ne_push {a : Act} {index : Nat} (h : a.BreaksOff index) (bytes : List UInt8) :
    a ≠ .push bytes := by
  rcases h with rfl | ⟨reason, rfl⟩ <;> simp

namespace System

/-- The stage of a call. -/
def stage? (s : System) (index : Nat) : Option Stage :=
  s.calls[index]?.map Call.stage

/-- What one act does to a system. -/
inductive Acts (s : System) : Act → System → Prop where
  | advances {index : Nat} {c : Call} {e : Engine} {stage : Stage}
      (call : s.calls[index]? = some c) (move : Stage.Moves c.program s.engine c.stage e stage) :
      Acts s (.advance index) ⟨e, s.calls.setIfInBounds index { c with stage }⟩
  | breaks {a : Act} {index : Nat} {c : Call} {stage : Stage} (own : a.BreaksOff index)
      (call : s.calls[index]? = some c) (broken : c.stage.Breaks stage) :
      Acts s a ⟨s.engine, s.calls.setIfInBounds index { c with stage }⟩
  | absent {a : Act} {index : Nat} (own : a = .advance index ∨ a.BreaksOff index)
      (call : s.calls[index]? = none) : Acts s a s
  | calls {manner : Manner} {program : Program} :
      Acts s (.call manner program) ⟨s.engine, s.calls.push (.request manner program)⟩
  | pushes {bytes : List UInt8} : Acts s (.push bytes) ⟨s.engine.push bytes, s.calls⟩
  | stops : Acts s .stop ⟨s.engine.stop, s.calls⟩

theorem modify_eq_set {calls : Array Call} {index : Nat} {c : Call} (f : Call → Call)
    (h : calls[index]? = some c) : calls.modify index f = calls.setIfInBounds index (f c) := by
  obtain ⟨hlt, rfl⟩ := Array.getElem?_eq_some_iff.mp h
  apply Array.ext
  · simp
  · intro i _ _
    rw [Array.getElem_modify, Array.getElem_setIfInBounds]
    split
    · next hi => subst hi; rfl
    · rfl

theorem modify_eq_self {calls : Array Call} {index : Nat} (f : Call → Call)
    (h : calls[index]? = none) : calls.modify index f = calls := by
  have hle := Array.getElem?_eq_none_iff.mp h
  apply Array.ext
  · simp
  · intro i hi _
    rw [Array.getElem_modify, if_neg]
    have hlt : i < calls.size := by simpa using hi
    omega

theorem act_advance_eq {s : System} {index : Nat} {c : Call} (h : s.calls[index]? = some c) :
    s.act (.advance index) =
      (⟨(c.advance s.engine).engine, s.calls.setIfInBounds index (c.advance s.engine).call⟩,
        (c.advance s.engine).events) := by
  obtain ⟨hlt, rfl⟩ := Array.getElem?_eq_some_iff.mp h
  simp [act, advance_of_lt s hlt, Array.setIfInBounds, hlt]

theorem act_advance {s : System} {index : Nat} {c : Call} (h : s.calls[index]? = some c) :
    (s.act (.advance index)).1 =
      ⟨(c.advance s.engine).engine, s.calls.setIfInBounds index (c.advance s.engine).call⟩ := by
  rw [act_advance_eq h]

/-- A call that was never made does nothing. -/
theorem act_advance_absent {s : System} {index : Nat} (h : s.calls[index]? = none) :
    s.act (.advance index) = (s, []) := by
  have hle : ¬ index < s.calls.size := Nat.not_lt.mpr (Array.getElem?_eq_none_iff.mp h)
  simp [act, advance, hle]

theorem acts (s : System) (a : Act) : s.Acts a (s.act a).1 := by
  cases a with
  | call manner program => exact .calls
  | push bytes => exact .pushes
  | stop => exact .stops
  | advance index =>
    cases hcall : s.calls[index]? with
    | none =>
      rw [act_advance_absent hcall]
      exact .absent (.inl rfl) hcall
    | some c =>
      obtain ⟨stage, hstage, hmove⟩ := Call.advance_moves s.engine c
      rw [act_advance hcall, hstage]
      exact .advances hcall hmove
  | refuse index reason =>
    cases hcall : s.calls[index]? with
    | none =>
      simp only [act, modify_eq_self _ hcall]
      exact .absent (.inr (.inr ⟨reason, rfl⟩)) hcall
    | some c =>
      obtain ⟨stage, hstage, hbroken⟩ := Call.refuse_breaks reason c
      simp only [act, modify_eq_set _ hcall, hstage]
      exact .breaks (.inr ⟨reason, rfl⟩) hcall hbroken
  | crash index =>
    cases hcall : s.calls[index]? with
    | none =>
      simp only [act, modify_eq_self _ hcall]
      exact .absent (.inr (.inl rfl)) hcall
    | some c =>
      obtain ⟨stage, hstage, hbroken⟩ := Call.crash_breaks c
      simp only [act, modify_eq_set _ hcall, hstage]
      exact .breaks (.inl rfl) hcall hbroken

theorem Acts.memory_eq {s s' : System} {a : Act} (h : s.Acts a s') :
    s'.engine.memory = s.engine.memory := by
  cases h with
  | advances call move => exact move.memory_eq
  | _ => rfl

/-! ## Schedules in parts -/

/-- The system after a schedule. -/
def after (s : System) (acts : List Act) : System :=
  (s.run acts).1

@[simp] theorem after_nil (s : System) : s.after [] = s := rfl

@[simp] theorem after_cons (s : System) (a : Act) (acts : List Act) :
    s.after (a :: acts) = (s.act a).1.after acts := rfl

theorem after_append (s : System) (xs ys : List Act) :
    s.after (xs ++ ys) = (s.after xs).after ys := by
  induction xs generalizing s with
  | nil => rfl
  | cons a xs ih => exact ih (s.act a).1

theorem events_cons (s : System) (a : Act) (acts : List Act) :
    (s.run (a :: acts)).2 = (s.act a).2 ++ ((s.act a).1.run acts).2 := rfl

/-- What is noted of the acts of a schedule, in order. -/
def collect {α : Type} (note : System → Act → List α) : System → List Act → List α
  | _, [] => []
  | s, a :: acts => note s a ++ collect note (s.act a).1 acts

@[simp] theorem collect_nil {α : Type} (note : System → Act → List α) (s : System) :
    collect note s [] = [] := rfl

@[simp] theorem collect_cons {α : Type} (note : System → Act → List α) (s : System) (a : Act)
    (acts : List Act) : collect note s (a :: acts) = note s a ++ collect note (s.act a).1 acts :=
  rfl

theorem collect_append {α : Type} (note : System → Act → List α) (s : System) (xs ys : List Act) :
    collect note s (xs ++ ys) = collect note s xs ++ collect note (s.after xs) ys := by
  induction xs generalizing s with
  | nil => rfl
  | cons a xs ih => simp [ih]

/-- What is noted of a schedule is noted of one of its acts. -/
theorem exists_of_mem_collect {α : Type} {note : System → Act → List α} {x : α} {s : System}
    {acts : List Act} (h : x ∈ collect note s acts) :
    ∃ before a later, acts = before ++ a :: later ∧ x ∈ note (s.after before) a := by
  induction acts generalizing s with
  | nil => cases h
  | cons a acts ih =>
    rcases List.mem_append.mp h with hfirst | hlater
    · exact ⟨[], a, acts, rfl, hfirst⟩
    · obtain ⟨before, a', later, rfl, hx⟩ := ih hlater
      exact ⟨a :: before, a', later, rfl, hx⟩

/-- What others see of call number `index` under a schedule. -/
def shown (index : Nat) (s : System) (acts : List Act) : List Event :=
  s.collect (fun s a => if a = .advance index then (s.act a).2 else []) acts

theorem shown_cons (index : Nat) (s : System) (a : Act) (acts : List Act) :
    s.shown index (a :: acts) =
      (if a = .advance index then (s.act a).2 else []) ++ (s.act a).1.shown index acts := rfl

theorem shown_append (index : Nat) (s : System) (xs ys : List Act) :
    s.shown index (xs ++ ys) = s.shown index xs ++ (s.after xs).shown index ys :=
  collect_append _ s xs ys

/-- What holds at the start and is kept by every act holds after every schedule. -/
theorem after_induction {motive : System → Prop} (s : System) (acts : List Act) (start : motive s)
    (step : ∀ s a, motive s → motive (s.act a).1) : motive (s.after acts) := by
  induction acts generalizing s with
  | nil => exact start
  | cons a acts ih => exact ih (s.act a).1 (step s a start)

end System

end Brainfuck
