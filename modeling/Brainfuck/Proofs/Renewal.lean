import Brainfuck.Proofs.Course

/-!
# An idle engine is as good as a fresh one

Whatever has been done to an engine, as soon as no call owns it, it behaves as one that was just
made: the same schedule of new calls, pushes and stops shows the same events and leads to the same
results and flags on both (`past_is_forgotten`).

The two engines go through the schedule side by side. An idle engine has both flags down, as a fresh
one has, so all that can be left of the past are bytes in the queue; and before a call looks into
the queue it has emptied it. So `Mirrors` asks for equal queues only once some call has emptied
them, and asks for nothing about the calls of the past, which have numbers of their own.
-/

namespace Brainfuck

/-- The same act when the calls have numbers that are greater by `n`. -/
def Act.shift (n : Nat) : Act → Act
  | .call manner program => .call manner program
  | .advance index => .advance (n + index)
  | .refuse index reason => .refuse (n + index) reason
  | .crash index => .crash (n + index)
  | .push bytes => .push bytes
  | .stop => .stop

namespace Stage

/-- The stages of a call that has not emptied the queue. -/
def early : Stage → Bool
  | .requested | .rejected | .taken => true
  | _ => false

end Stage

namespace Call

variable {c : Call}

/-- A call that is refused a thread has emptied the queue before. -/
theorem refuse_of_early (h : c.stage.early = true) (reason : String) : c.refuse reason = c := by
  obtain ⟨manner, program, stage⟩ := c
  cases stage with
  | requested | rejected | taken => cases manner <;> rfl
  | _ => cases h

/-- A call that breaks off has emptied the queue before. -/
theorem crash_of_early (h : c.stage.early = true) : c.crash = c := by
  obtain ⟨manner, program, stage⟩ := c
  cases stage with
  | requested | rejected | taken => rfl
  | _ => cases h

/-- What waits in the queue is of no account to a call that has not emptied it. When it empties the
queue, it is of no account any more what was in it. -/
theorem advance_of_early (h : c.stage.early = true) (e : Engine) (queue : ByteQueue) :
    (c.advance { e with queue }).call = (c.advance e).call ∧
    (c.advance { e with queue }).events = (c.advance e).events ∧
    (c.advance { e with queue }).engine =
      { (c.advance e).engine with queue := (c.advance { e with queue }).engine.queue } ∧
    ((c.advance e).call.stage.early = true ∨
      (c.advance { e with queue }).engine.queue = (c.advance e).engine.queue) := by
  obtain ⟨manner, program, stage⟩ := c
  cases stage with
  | requested =>
    cases hbusy : e.busy with
    | false => simp [advance, hbusy, Stage.early]
    | true => simp [advance, hbusy, Stage.early]
  | rejected => exact ⟨rfl, rfl, rfl, .inl rfl⟩
  | taken => exact ⟨rfl, rfl, rfl, .inr rfl⟩
  | _ => cases h

end Call

namespace System

variable {memory n : Nat} {used fresh : System}

/-- A used engine stands where a fresh one does: its calls from number `n` on are the calls of the
other, and the engines are equal up to what is in a queue that nobody has emptied. -/
structure Mirrors (n : Nat) (used fresh : System) : Prop where
  size : used.calls.size = n + fresh.calls.size
  calls : ∀ i, used.calls[n + i]? = fresh.calls[i]?
  engine : used.engine = { fresh.engine with queue := used.engine.queue }
  queue : used.engine.queue = fresh.engine.queue ∨
    ∀ (i : Nat) (c : Call), fresh.calls[i]? = some c → c.stage.early = true

/-- An engine that nobody owns mirrors a fresh one before anything is done. -/
theorem mirrors_idle (h : System.new memory = .ok fresh) {past : List Act}
    (idle : (fresh.after past).engine.busy = false) :
    (fresh.after past).Mirrors (fresh.after past).calls.size fresh := by
  have hs := exclusive_after h past
  have hmemory := memory_after fresh past
  obtain ⟨-, rfl⟩ := new_eq_ok h
  generalize System.after ⟨⟨memory, .empty, false, false⟩, #[]⟩ past = s at idle hs hmemory
  have hlowered : s.engine.running = false := by
    rw [Bool.eq_false_iff]
    intro hrunning
    obtain ⟨i, hi⟩ := hs.raised hrunning
    rw [hs.busy_iff.mpr ⟨i, hi.owns⟩] at idle
    cases idle
  refine ⟨rfl, fun i => by simp, ?_, .inr fun i c hc => by simp at hc⟩
  obtain ⟨⟨memory', queue, running, busy⟩, calls⟩ := s
  cases hmemory
  cases idle
  cases hlowered
  rfl

namespace Mirrors

/-- A call of each engine changes in the same way, and the engines with it. -/
theorem set (h : Mirrors n used fresh) {index : Nat} {c c' : Call} {e e' : Engine}
    (hc : fresh.calls[index]? = some c) (hengine : e = { e' with queue := e.queue })
    (hqueue : e.queue = e'.queue ∨ (c'.stage.early = true ∧
      ∀ (i : Nat) (c : Call), fresh.calls[i]? = some c → c.stage.early = true)) :
    Mirrors n ⟨e, used.calls.setIfInBounds (n + index) c'⟩
      ⟨e', fresh.calls.setIfInBounds index c'⟩ := by
  have hlt := (Array.getElem?_eq_some_iff.mp hc).1
  have hlt' : n + index < used.calls.size := by rw [h.size]; omega
  refine ⟨by simpa using h.size, fun i => ?_, hengine, hqueue.imp_right fun hearly i d hd => ?_⟩
  · by_cases hi : i = index
    · subst hi
      simp [hlt, hlt']
    · rw [Array.getElem?_setIfInBounds_ne (by omega), Array.getElem?_setIfInBounds_ne (Ne.symm hi),
        h.calls]
  · obtain ⟨hc', hothers⟩ := hearly
    by_cases hi : i = index
    · subst hi
      obtain rfl : c' = d := by simpa [hlt] using hd
      exact hc'
    · rw [Array.getElem?_setIfInBounds_ne (Ne.symm hi)] at hd
      exact hothers i d hd

/-- One call of each engine does its next action. -/
theorem advance (h : Mirrors n used fresh) (index : Nat) :
    (used.act (.advance (n + index))).2 = (fresh.act (.advance index)).2 ∧
      Mirrors n (used.act (.advance (n + index))).1 (fresh.act (.advance index)).1 := by
  have hcalls := h.calls index
  cases hc : fresh.calls[index]? with
  | none =>
    rw [hc] at hcalls
    rw [act_advance_absent hc, act_advance_absent hcalls]
    exact ⟨rfl, h⟩
  | some c =>
    rw [hc] at hcalls
    rw [act_advance_eq hc, act_advance_eq hcalls]
    rcases h.queue with hqueue | hearly
    -- with equal queues it is one act of one engine, and before that no call looks at the queue
    · have hengine : used.engine = fresh.engine := by rw [h.engine, hqueue]
      rw [hengine]
      exact ⟨rfl, h.set hc rfl (.inl rfl)⟩
    · obtain ⟨hcall, hevents, hengine, hqueue⟩ :=
        Call.advance_of_early (hearly index c hc) fresh.engine used.engine.queue
      rw [← h.engine] at hcall hevents hengine hqueue
      rw [hcall]
      refine ⟨hevents, h.set hc hengine ?_⟩
      rcases hqueue with hstage | hqueue
      · exact .inr ⟨hstage, hearly⟩
      · exact .inl hqueue

/-- A call of each engine is refused a thread or breaks off. -/
theorem modify (h : Mirrors n used fresh) (index : Nat) {f : Call → Call}
    (hf : ∀ c : Call, c.stage.early = true → f c = c) :
    Mirrors n ⟨used.engine, used.calls.modify (n + index) f⟩
      ⟨fresh.engine, fresh.calls.modify index f⟩ := by
  have hcalls := h.calls index
  cases hc : fresh.calls[index]? with
  | none =>
    rw [hc] at hcalls
    rw [modify_eq_self f hc, modify_eq_self f hcalls]
    exact h
  | some c =>
    rw [hc] at hcalls
    rw [modify_eq_set f hc, modify_eq_set f hcalls]
    refine h.set hc h.engine (h.queue.imp_right fun hearly => ⟨?_, hearly⟩)
    rw [hf c (hearly index c hc)]
    exact hearly index c hc

/-- One step of both engines. -/
theorem act (h : Mirrors n used fresh) (a : Act) :
    (used.act (a.shift n)).2 = (fresh.act a).2 ∧
      Mirrors n (used.act (a.shift n)).1 (fresh.act a).1 := by
  cases a with
  | advance index => exact h.advance index
  | refuse index reason =>
    exact ⟨rfl, h.modify index fun c hc => Call.refuse_of_early hc reason⟩
  | crash index => exact ⟨rfl, h.modify index fun c hc => Call.crash_of_early hc⟩
  | call manner program =>
    refine ⟨rfl, by simp [Act.shift, System.act, h.size, Nat.add_assoc], fun i => ?_, h.engine,
      h.queue.imp_right fun hearly i c hc => ?_⟩
    · simp [Act.shift, System.act, Array.getElem?_push, h.size, h.calls]
    · rw [System.act, Array.getElem?_push] at hc
      split at hc
      · cases hc
        rfl
      · exact hearly i c hc
  | push bytes =>
    refine ⟨rfl, h.size, h.calls, ?_, h.queue.imp_left fun hqueue => ?_⟩
    · have hengine := congrArg (Engine.push · bytes) h.engine
      exact hengine
    · exact congrArg (ByteQueue.push · bytes) hqueue
  | stop =>
    have hengine := congrArg Engine.stop h.engine
    exact ⟨rfl, h.size, h.calls, hengine, h.queue⟩

/-- The same schedule on both engines. -/
theorem run (h : Mirrors n used fresh) (acts : List Act) :
    (used.run (acts.map (Act.shift n))).2 = (fresh.run acts).2 ∧
      Mirrors n (used.after (acts.map (Act.shift n))) (fresh.after acts) := by
  induction acts generalizing used fresh with
  | nil => exact ⟨rfl, h⟩
  | cons a acts ih =>
    obtain ⟨hseen, hnext⟩ := h.act a
    obtain ⟨hlater, hmirrors⟩ := ih hnext
    refine ⟨?_, hmirrors⟩
    rw [List.map_cons, events_cons, events_cons, hseen, hlater]

theorem result?_eq (h : Mirrors n used fresh) (index : Nat) :
    used.result? (n + index) = fresh.result? index :=
  congrArg (Option.bind · Call.result?) (h.calls index)

/-- Once a call has emptied the queues, they are equal. -/
theorem queue_eq (h : Mirrors n used fresh) {past : List Milestone} (hpast : fresh.Ledger past)
    {index : Nat} (hemptied : .emptied index ∈ past) :
    used.engine.queue = fresh.engine.queue := by
  refine h.queue.resolve_right fun hearly => ?_
  obtain ⟨stage, hstage, hmem⟩ := (hpast.mem_iff rfl).mp hemptied
  obtain ⟨c, hc, rfl⟩ := exists_call_of_stage? hstage
  have hcall := hearly index c hc
  cases hkind : c.stage <;> simp_all [Stage.early, Stage.milestones]

end Mirrors

/-- Nothing of what was done to an engine is left when no call owns it. New calls to it under any
schedule, with whatever their hooks do, are seen to do what they do on a fresh engine of the same
size: the same log and the same calls of the hooks, the same flags, and for each call the same stage
and the same result. From the moment that one of them has emptied the queue, the same bytes wait. -/
theorem past_is_forgotten (h : System.new memory = .ok fresh) {past : List Act}
    (idle : (fresh.after past).engine.busy = false) (later : List Act) :
    let used := fresh.after past
    let n := used.calls.size
    let again := later.map (Act.shift n)
    (used.run again).2 = (fresh.run later).2 ∧
      (used.after again).engine.running = (fresh.after later).engine.running ∧
      (used.after again).engine.busy = (fresh.after later).engine.busy ∧
      (∀ i, (used.after again).calls[n + i]? = (fresh.after later).calls[i]?) ∧
      (∀ i, (used.after again).result? (n + i) = (fresh.after later).result? i) ∧
      ∀ i, .emptied i ∈ fresh.history later →
        (used.after again).engine.queue = (fresh.after later).engine.queue := by
  intro used n again
  obtain ⟨hseen, hmirrors⟩ := (mirrors_idle h idle).run later
  have hrunning := congrArg Engine.running hmirrors.engine
  have hbusy := congrArg Engine.busy hmirrors.engine
  exact ⟨hseen, hrunning, hbusy, hmirrors.calls, hmirrors.result?_eq, fun i hemptied =>
    hmirrors.queue_eq (ledger_of_new h later) hemptied⟩

/-- A run that was stopped leaves two bytes and a stop behind; the next `,` gets the next byte. -/
theorem past_is_forgotten_of_echo :
    let fresh : System := ⟨⟨1, .empty, false, false⟩, #[]⟩
    let echo : Program := ⟨#[some .read, some .print]⟩
    let past : List Act := [.call .run echo, .advance 0, .advance 0, .advance 0, .advance 0, .stop,
      .advance 0, .advance 0, .advance 0, .push [1, 2], .stop]
    let later : List Act := .call .spawn echo :: .advance 0 :: .advance 0 :: .push [3] ::
      List.replicate 9 (.advance 0)
    System.new 1 = .ok fresh ∧ (fresh.after past).engine = ⟨1, ⟨[1, 2]⟩, false, false⟩ ∧
      ((fresh.after past).after (later.map (Act.shift (fresh.after past).calls.size))).result?
        ((fresh.after past).calls.size + 0) = some (.done ⟨#[3], .completed, ⟨#[3], 0⟩⟩) ∧
      ((fresh.after past).run (later.map (Act.shift (fresh.after past).calls.size))).2 =
        (fresh.run later).2 := by
  intro fresh echo past later
  have new : System.new 1 = .ok fresh := rfl
  have idle : (fresh.after past).engine.busy = false := by decide
  obtain ⟨hseen, -, -, -, hresult, -⟩ := past_is_forgotten new idle later
  have hfresh : (fresh.after later).result? 0 =
    some (.done ⟨#[3], .completed, ⟨#[3], 0⟩⟩) := by decide
  exact ⟨new, by decide, (hresult 0).trans hfresh, hseen⟩

end System

end Brainfuck
