import Brainfuck.Proofs.Calls
import Brainfuck.Proofs.Worker

/-!
# Bytes that arrive while a run goes on

From the moment a call has emptied the queue (`System.Begun`) its run reads the bytes that anybody
pushes, in the order in which they are pushed. `Follows` says where such a run is: on the path of
the sequential machine that has all the bytes pushed so far at hand, with the operators behind it
that the run has completed. Pushed bytes make the input of that machine longer, which leaves the
path a path, and every act of the run is a step on it, a rest, or its end; so the run stays on the
path under every schedule (`System.OnPath.after`).

The path knows nothing of when a byte arrived, by which act a `,` came to it and how often it asked
in vain.
-/

namespace Brainfuck

/-- The bytes that an act pushes. -/
def Act.pushed : Act → List UInt8
  | .push bytes => bytes
  | _ => []

theorem Act.pushed_eq_nil {a : Act} (h : ∀ bytes, a ≠ .push bytes) : a.pushed = [] := by
  cases a with
  | push bytes => exact absurd rfl (h bytes)
  | _ => rfl

@[simp] theorem Act.pushed_advance (index : Nat) : (Act.advance index).pushed = [] := rfl

@[simp] theorem Act.pushed_stop : Act.stop.pushed = [] := rfl

/-- The bytes that a schedule pushes. -/
def pushed (acts : List Act) : List UInt8 :=
  acts.flatMap Act.pushed

@[simp] theorem pushed_nil : pushed [] = [] := rfl

@[simp] theorem pushed_cons (a : Act) (acts : List Act) :
    pushed (a :: acts) = a.pushed ++ pushed acts := rfl

@[simp] theorem pushed_append (xs ys : List Act) : pushed (xs ++ ys) = pushed xs ++ pushed ys :=
  List.flatMap_append

namespace Stage

/-- The operator that the next action of a call completes. -/
def completion? (e : Engine) : Stage → Option Completion
  | .active w => w.completion? e.running e.queue
  | _ => none

/-- The bytes that the next action of a call takes out of the queue. -/
def popped (e : Engine) : Stage → List UInt8
  | .active w => w.popped e.running e.queue
  | _ => []

end Stage

namespace System

/-- The operator of call number `index` that an act completes. -/
def completion? (index : Nat) (s : System) (a : Act) : Option Completion :=
  if a = .advance index then (s.stage? index).bind (Stage.completion? s.engine) else none

theorem completion?_of_call {s : System} {index : Nat} {c : Call} (h : s.calls[index]? = some c)
    (a : Act) : (s.completion? index a).toList =
      if a = .advance index then (c.stage.completion? s.engine).toList else [] := by
  by_cases ha : a = .advance index <;> simp [completion?, ha, stage?_of_call h]

/-- The operators that call number `index` completes under a schedule. -/
def completions (index : Nat) (s : System) (acts : List Act) : List Completion :=
  s.collect (fun s a => (s.completion? index a).toList) acts

theorem completions_append (s : System) (index : Nat) (xs ys : List Act) :
    s.completions index (xs ++ ys) = s.completions index xs ++ (s.after xs).completions index ys :=
  collect_append _ s xs ys

/-- The bytes that an act of call number `index` takes out of the queue. -/
def poppedBy (index : Nat) (s : System) (a : Act) : List UInt8 :=
  if a = .advance index then (s.stage? index).elim [] (Stage.popped s.engine) else []

/-- The bytes that call number `index` takes out of the queue under a schedule. -/
def popped (index : Nat) (s : System) (acts : List Act) : List UInt8 :=
  s.collect (poppedBy index) acts

/-- Call number `index` is to carry out the program on `memory` cells, and has just emptied the
queue. -/
def Begun (memory : Nat) (program : Program) (index : Nat) (s : System) : Prop :=
  ∃ fresh acts c, System.new memory = .ok fresh ∧ (fresh.after acts).calls[index]? = some c ∧
    c.program = program ∧ c.stage = .taken ∧ s = ((fresh.after acts).act (.advance index)).1

end System

/-! ## A run on the path of its program -/

/-- A run whose sequential machine is in this state may end with the result: at the end of the
program or at a stop, at an operator that fails, without a thread, or by breaking off. -/
inductive Explains (p : Program) (t : Sequential) : Result → Prop where
  | done : Explains p t (.done (t.machine.outcome p))
  | failed {failure : Failure} (failed : t.step p = .failed failure) :
      Explains p t (.ofFailure failure)
  | refused {reason : String} : Explains p t (.failed (.noThread reason))
  | crashed : Explains p t .crashed

theorem Explains.feed {p : Program} {t : Sequential} {r : Result} (h : Explains p t r)
    (ht : t.machine.tape.InBounds) (more : List UInt8) : Explains p (t.feed more) r := by
  cases h with
  | done => exact .done
  | failed failed => exact .failed (Sequential.step_feed_failed more ht failed)
  | refused => exact .refused
  | crashed => exact .crashed

/-- A call at this stage is on the path of its program's machine, which starts with the bytes
`stream`, and has `done` behind it. -/
def Follows (program : Program) (origin : Machine) (stream : List UInt8) (done : List Completion)
    (e : Engine) : Stage → Prop
  | .cleared | .launching => e.queue.bytes = stream ∧ done = []
  | .active w => w.program = program ∧ w.Sound ∧
    ∃ n, Sequential.Path program n ⟨origin, stream⟩ done (w.sequential e.queue)
  | .lowering r | .releasing r => ∃ n t, Sequential.Path program n ⟨origin, stream⟩ done t ∧
    Explains program t r ∧ t.input = e.queue.bytes
  | .returned r => ∃ n t, Sequential.Path program n ⟨origin, stream⟩ done t ∧ Explains program t r
  | _ => False

namespace Follows

variable {program : Program} {origin : Machine} {stream : List UInt8} {done : List Completion}
  {e e' : Engine} {stage stage' : Stage}

/-- The running flag and the busy flag are of no account. -/
theorem of_queue (h : Follows program origin stream done e stage) (hqueue : e'.queue = e.queue) :
    Follows program origin stream done e' stage := by
  cases stage <;> simp_all [Follows]

/-- A run that has released the engine does not look at it any more. -/
theorem of_not_owns (h : Follows program origin stream done e stage) (howns : ¬ stage.owns = true) :
    Follows program origin stream done e' stage := by
  cases stage with
  | returned r => exact h
  | _ => first | exact absurd rfl howns | cases h

theorem pushes (horigin : origin.tape.InBounds) (h : Follows program origin stream done e stage)
    (bytes : List UInt8) :
    Follows program origin (stream ++ bytes) done (e.push bytes) stage := by
  have hfeed : ∀ {n t}, Sequential.Path program n ⟨origin, stream⟩ done t →
      Sequential.Path program n ⟨origin, stream ++ bytes⟩ done (t.feed bytes) :=
    fun path => path.feed bytes horigin
  cases stage with
  | cleared => exact ⟨congrArg (· ++ bytes) h.1, h.2⟩
  | launching => exact ⟨congrArg (· ++ bytes) h.1, h.2⟩
  | active w =>
    obtain ⟨hprogram, hw, n, path⟩ := h
    exact ⟨hprogram, hw, n, hfeed path⟩
  | lowering r =>
    obtain ⟨n, t, path, explains, hinput⟩ := h
    exact ⟨n, t.feed bytes, hfeed path, explains.feed (path.inBounds horigin) bytes,
      congrArg (· ++ bytes) hinput⟩
  | releasing r =>
    obtain ⟨n, t, path, explains, hinput⟩ := h
    exact ⟨n, t.feed bytes, hfeed path, explains.feed (path.inBounds horigin) bytes,
      congrArg (· ++ bytes) hinput⟩
  | returned r =>
    obtain ⟨n, t, path, explains⟩ := h
    exact ⟨n, t.feed bytes, hfeed path, explains.feed (path.inBounds horigin) bytes⟩
  | requested | rejected | taken => cases h

theorem breaks (h : Follows program origin stream done e stage) (broken : stage.Breaks stage') :
    Follows program origin stream done e stage' := by
  cases broken with
  | refused =>
    obtain ⟨hqueue, rfl⟩ := h
    exact ⟨0, _, .nil, .refused, hqueue.symm⟩
  | roomless =>
    obtain ⟨hqueue, rfl⟩ := h
    exact ⟨0, _, .nil, .crashed, hqueue.symm⟩
  | hook =>
    obtain ⟨-, -, n, path⟩ := h
    exact ⟨n, _, path, .crashed, rfl⟩
  | rests => exact h

theorem moves (hmemory : Machine.start e.memory = .ok origin)
    (h : Follows program origin stream done e stage)
    (move : stage.Moves program e e' stage') :
    Follows program origin stream (done ++ (stage.completion? e).toList) e' stage' := by
  -- only a worker completes operators
  have idle : ∀ {stage' : Stage}, stage.completion? e = none →
      Follows program origin stream done e' stage' →
      Follows program origin stream (done ++ (stage.completion? e).toList) e' stage' := by
    intro stage' hnone h'
    rwa [hnone, Option.toList_none, List.append_nil]
  cases move with
  | raises => exact idle rfl h
  | @starts w worker =>
    obtain ⟨machine, hmachine, rfl⟩ := Worker.launch_eq_ok worker
    cases hmemory.symm.trans hmachine
    obtain ⟨hqueue, rfl⟩ := h
    refine idle rfl ⟨rfl, Worker.sound_of_ready (Machine.start_inBounds hmachine), 0, ?_⟩
    rw [← hqueue]
    exact .nil
  | falters worker =>
    unfold Worker.launch at worker
    rw [hmemory] at worker
    cases worker
  | @works w w' queue events moved =>
    obtain ⟨rfl, hw, n, path⟩ := h
    have effect := Worker.effect_of_eq hw moved
    simp only [Stage.completion?]
    generalize w.completion? e.running e.queue = done' at effect ⊢
    cases effect with
    | rests hprogram hmachine sound =>
      rw [Option.toList_none, List.append_nil]
      refine ⟨hprogram, sound, n, ?_⟩
      unfold Worker.sequential
      rw [hmachine]
      exact path
    | steps hprogram sound next => exact ⟨hprogram, sound, n + 1, path.snoc next⟩
  | @ends w r queue events moved =>
    obtain ⟨rfl, hw, n, path⟩ := h
    have effect := Worker.effect_of_eq hw moved
    simp only [Stage.completion?]
    generalize w.completion? e.running e.queue = done' at effect ⊢
    cases effect with
    | ends finish =>
      rw [Option.toList_none, List.append_nil]
      exact ⟨n, _, path, .done, rfl⟩
    | fails failed =>
      rw [Option.toList_none, List.append_nil]
      exact ⟨n, _, path, .failed failed, rfl⟩
  | lowers => exact idle rfl h
  | releases =>
    obtain ⟨n, t, path, explains, -⟩ := h
    exact idle rfl ⟨n, t, path, explains⟩
  | returned => exact idle rfl h
  | rejects | takes | clears | rejected => cases h

theorem path (h : Follows program origin stream done e stage) :
    ∃ n t, Sequential.Path program n ⟨origin, stream⟩ done t := by
  cases stage with
  | cleared | launching =>
    obtain ⟨-, rfl⟩ := h
    exact ⟨0, _, .nil⟩
  | active w =>
    obtain ⟨-, -, n, path⟩ := h
    exact ⟨n, _, path⟩
  | lowering r | releasing r =>
    obtain ⟨n, t, path, -, -⟩ := h
    exact ⟨n, t, path⟩
  | returned r =>
    obtain ⟨n, t, path, -⟩ := h
    exact ⟨n, t, path⟩
  | requested | rejected | taken => cases h

theorem of_closing {r : Result} {flags : Nat}
    (h : Follows program origin stream done e (.closing r flags)) :
    ∃ n t, Sequential.Path program n ⟨origin, stream⟩ done t ∧ Explains program t r := by
  obtain _ | _ | _ := flags
  · exact h
  · obtain ⟨n, t, path, explains, -⟩ := h
    exact ⟨n, t, path, explains⟩
  · obtain ⟨n, t, path, explains, -⟩ := h
    exact ⟨n, t, path, explains⟩

/-- The bytes of the stream are the popped ones and those that wait, until the engine is
released. -/
theorem stream_eq (horigin : origin.tape.InBounds) (h : Follows program origin stream done e stage)
    (howns : stage.owns = true) : stream = takenBytes done ++ e.queue.bytes := by
  cases stage with
  | cleared | launching => simp [h.1, h.2]
  | active w =>
    obtain ⟨-, -, n, path⟩ := h
    exact path.input_eq horigin
  | lowering r | releasing r =>
    obtain ⟨n, t, path, -, hinput⟩ := h
    rw [← hinput]
    exact path.input_eq horigin
  | returned r => cases howns
  | requested | rejected | taken => cases h

/-- The bytes that leave the queue are those that operators take. -/
theorem popped_eq (h : Follows program origin stream done e stage) :
    stage.popped e = takenBytes (stage.completion? e).toList := by
  cases stage with
  | active w => exact Worker.popped_eq h.2.1
  | _ => rfl

end Follows

/-- What an act leaves of a call that follows the path of its program. -/
theorem Call.Sees.follows {index : Nat} {c : Call} {e e' : Engine} {a : Act} {stage : Stage}
    {origin : Machine} {stream : List UInt8} {done : List Completion}
    (hmemory : Machine.start e.memory = .ok origin)
    (h : Follows c.program origin stream done e c.stage) (sees : c.Sees index e a e' stage) :
    Follows c.program origin (stream ++ a.pushed)
      (done ++ if a = .advance index then (c.stage.completion? e).toList else []) e' stage := by
  cases sees with
  | moves own move =>
    subst own
    rw [if_pos rfl, Act.pushed_advance, List.append_nil]
    exact h.moves hmemory move
  | breaks own broken =>
    have hpushed : a.pushed = [] := by rcases own with rfl | ⟨reason, rfl⟩ <;> rfl
    have hother : a ≠ .advance index := by rcases own with rfl | ⟨reason, rfl⟩ <;> nofun
    rw [hpushed, if_neg hother, List.append_nil, List.append_nil]
    exact h.breaks broken
  | pushes other =>
    subst other
    rw [if_neg (by simp), List.append_nil]
    exact h.pushes (Machine.start_inBounds hmemory) _
  | stops other =>
    subst other
    rw [if_neg (by simp), Act.pushed_stop, List.append_nil, List.append_nil]
    exact h.of_queue rfl
  | others own quiet kept =>
    rw [if_neg own, Act.pushed_eq_nil quiet, List.append_nil, List.append_nil]
    by_cases howns : c.stage.owns = true
    · rw [kept howns]
      exact h
    · exact h.of_not_owns howns

namespace System

/-- Call number `index` is on the path of its program's machine, which starts as `origin` with the
bytes `stream`, and has `done` behind it. -/
structure OnPath (program : Program) (origin : Machine) (index : Nat) (stream : List UInt8)
    (done : List Completion) (s : System) : Prop where
  exclusive : s.Exclusive
  start : Machine.start s.engine.memory = .ok origin
  call : ∃ c, s.calls[index]? = some c ∧ c.program = program ∧
    Follows program origin stream done s.engine c.stage

variable {memory index : Nat} {program : Program} {origin : Machine} {stream : List UInt8}
  {done : List Completion} {s : System}

theorem memory_after (s : System) (acts : List Act) :
    (s.after acts).engine.memory = s.engine.memory := by
  induction acts generalizing s with
  | nil => rfl
  | cons a acts ih => exact (ih (s.act a).1).trans (s.acts a).memory_eq

theorem Begun.onPath (h : Begun memory program index s) :
    ∃ origin, Machine.start memory = .ok origin ∧ s.OnPath program origin index [] [] := by
  obtain ⟨fresh, acts, c, hfresh, hc, rfl, htaken, rfl⟩ := h
  have hexclusive : (fresh.after acts).Exclusive := (exclusive_new hfresh).after acts
  obtain ⟨hmemory, hnew⟩ := new_eq_ok hfresh
  have hstart : Machine.start memory = .ok ⟨⟨Array.replicate memory 0, 0⟩, #[], 0⟩ := by
    simp [Machine.start, Tape.blank, hmemory]
  have hsame : ((fresh.after acts).act (.advance index)).1.engine.memory = memory := by
    rw [((fresh.after acts).acts _).memory_eq, memory_after, hnew]
  have hacts := (fresh.after acts).acts (.advance index)
  obtain ⟨stage, hcall, sees⟩ := hacts.sees hexclusive hc
  refine ⟨_, hstart, hexclusive.acts hacts, by rw [hsame]; exact hstart, _, hcall, rfl, ?_⟩
  generalize ((fresh.after acts).act (.advance index)).1.engine = e' at sees ⊢
  have hmove := sees.move
  rw [htaken] at hmove
  cases hmove
  exact ⟨rfl, rfl⟩

theorem Begun.exists_call (h : Begun memory program index s) :
    ∃ c, s.calls[index]? = some c ∧ c.program = program ∧ c.stage = .cleared := by
  obtain ⟨fresh, acts, c, hfresh, hc, rfl, htaken, rfl⟩ := h
  obtain ⟨hlt, hget⟩ := Array.getElem?_eq_some_iff.mp hc
  obtain ⟨manner, program, stage⟩ := c
  subst htaken
  exact ⟨⟨manner, program, .cleared⟩, by simp [act, advance_of_lt _ hlt, hget, Call.advance], rfl,
    rfl⟩

/-- Where a call is that is on its path. -/
theorem OnPath.follows (h : s.OnPath program origin index stream done) {stage : Stage}
    (hstage : s.stage? index = some stage) :
    Follows program origin stream done s.engine stage := by
  obtain ⟨c, hc, -, hfollows⟩ := h.call
  obtain rfl : c.stage = stage := Option.some.inj ((stage?_of_call hc).symm.trans hstage)
  exact hfollows

theorem Begun.stage?_eq (h : Begun memory program index s) : s.stage? index = some .cleared := by
  obtain ⟨c, hc, -, hcleared⟩ := h.exists_call
  rw [stage?_of_call hc, hcleared]

theorem Begun.queue_eq (h : Begun memory program index s) : s.engine.queue.bytes = [] := by
  obtain ⟨origin, -, hpath⟩ := h.onPath
  exact (hpath.follows h.stage?_eq).1

namespace OnPath

/-- A run on its path has returned if it has a result. -/
theorem stage_of_result (h : s.OnPath program origin index stream done) {r : Result}
    (hr : s.result? index = some r) : s.stage? index = some (.closing r 0) := by
  obtain ⟨c, hc, -, hfollows⟩ := h.call
  rw [result?_eq, stage?_of_call hc] at hr
  rw [stage?_of_call hc]
  cases hstage : c.stage with
  | returned r' =>
    rw [hstage] at hr
    cases hr
    rfl
  | rejected =>
    rw [hstage] at hfollows
    cases hfollows
  | _ =>
    rw [hstage] at hr
    cases hr

/-- The path that a run which is over has come along. -/
theorem path_of_closing (h : s.OnPath program origin index stream done) {r : Result} {flags : Nat}
    (hstage : s.stage? index = some (.closing r flags)) :
    ∃ n t, Sequential.Path program n ⟨origin, stream⟩ done t ∧ Explains program t r := by
  exact (h.follows hstage).of_closing

theorem act (h : s.OnPath program origin index stream done) (a : Act) :
    (s.act a).1.OnPath program origin index (stream ++ a.pushed)
      (done ++ (s.completion? index a).toList) := by
  obtain ⟨c, hc, rfl, hfollows⟩ := h.call
  obtain ⟨stage, hc', sees⟩ := (s.acts a).sees h.exclusive hc
  refine ⟨h.exclusive.acts (s.acts a), by rw [(s.acts a).memory_eq]; exact h.start, _, hc', rfl, ?_⟩
  rw [completion?_of_call hc]
  exact sees.follows h.start hfollows

theorem after (h : s.OnPath program origin index stream done) (acts : List Act) :
    (s.after acts).OnPath program origin index (stream ++ pushed acts)
      (done ++ s.completions index acts) := by
  induction acts generalizing s stream done with
  | nil => simpa [completions] using h
  | cons a acts ih => simpa [completions, List.append_assoc] using ih (h.act a)

/-- The bytes that an act of a run takes out of the queue are those that its operator takes. -/
theorem poppedBy_eq (h : s.OnPath program origin index stream done) (a : Act) :
    s.poppedBy index a = takenBytes (s.completion? index a).toList := by
  obtain ⟨c, hc, -, hfollows⟩ := h.call
  by_cases ha : a = .advance index
  · simpa [poppedBy, completion?, ha, stage?_of_call hc] using hfollows.popped_eq
  · simp [poppedBy, completion?, ha]

/-- The bytes that a run takes out of the queue are those that its operators take. -/
theorem popped_eq (h : s.OnPath program origin index stream done) (acts : List Act) :
    s.popped index acts = takenBytes (s.completions index acts) := by
  induction acts generalizing s stream done with
  | nil => rfl
  | cons a acts ih =>
    have hlater := ih (h.act a)
    unfold popped completions at *
    rw [collect_cons, collect_cons, takenBytes_append, h.poppedBy_eq, hlater]

/-- What is popped and what then waits is what waited before and what was pushed, when only the run
itself acts and bytes are pushed. -/
theorem queue_act (h : s.OnPath program origin index stream done) {a : Act}
    (ha : a = .advance index ∨ ∃ bytes, a = .push bytes) :
    s.engine.queue.bytes ++ a.pushed =
      s.poppedBy index a ++ (s.act a).1.engine.queue.bytes := by
  have hbounds := Machine.start_inBounds h.start
  rcases ha with rfl | ⟨bytes, rfl⟩
  · have hafter := h.act (.advance index)
    obtain ⟨c, hc, -, hfollows⟩ := h.call
    obtain ⟨c', hc', -, hfollows'⟩ := hafter.call
    obtain ⟨stage, hcall, sees⟩ := (s.acts (.advance index)).sees h.exclusive hc
    cases hc'.symm.trans hcall
    have hpopped : s.poppedBy index (.advance index) = c.stage.popped s.engine := by
      simp [poppedBy, stage?_of_call hc]
    rw [hpopped, Act.pushed_advance, List.append_nil]
    generalize (s.act (.advance index)).1.engine = e' at sees hfollows'
    have hmove := sees.move
    by_cases hactive : ∃ w, c.stage = .active w
    · have howns : c.stage.owns = true ∧ stage.owns = true := by
        obtain ⟨w, hw⟩ := hactive
        rw [hw] at hmove ⊢
        cases hmove <;> exact ⟨rfl, rfl⟩
      -- before and after the act the stream is what was popped so far and what waits
      have hbefore := hfollows.stream_eq hbounds howns.1
      have hstream := hfollows'.stream_eq hbounds howns.2
      have hdone : s.completion? index (.advance index) = c.stage.completion? s.engine := by
        simp [completion?, stage?_of_call hc]
      rw [Act.pushed_advance, List.append_nil, takenBytes_append, hdone,
        ← hfollows.popped_eq, hbefore, List.append_assoc] at hstream
      exact List.append_cancel_left hstream
    · -- the call takes nothing, and has left the stage in which it would empty the queue
      have hnone : c.stage.popped s.engine = [] := by
        cases hstage : c.stage with
        | active w => exact absurd ⟨w, hstage⟩ hactive
        | _ => rfl
      rcases hmove.queue_eq with htaken | hw | hqueue
      · rw [htaken] at hfollows
        cases hfollows
      · exact absurd hw hactive
      · rw [hnone, hqueue, List.nil_append]
  · simp [poppedBy, Act.pushed, System.act, Engine.push]

theorem queue_after (h : s.OnPath program origin index stream done) {acts : List Act}
    (hacts : ∀ a ∈ acts, a = .advance index ∨ ∃ bytes, a = .push bytes) :
    s.engine.queue.bytes ++ pushed acts =
      s.popped index acts ++ (s.after acts).engine.queue.bytes := by
  induction acts generalizing s stream done with
  | nil => simp [popped]
  | cons a acts ih =>
    have hact := h.queue_act (hacts a (List.mem_cons_self ..))
    have hlater := ih (h.act a) fun a' ha' => hacts a' (List.mem_cons_of_mem _ ha')
    rw [pushed_cons, ← List.append_assoc, hact, List.append_assoc, hlater, ← List.append_assoc]
    rfl

/-- The bytes of the stream are the popped ones and those that wait, also when the run has released
the engine, if only the run itself acts and bytes are pushed. -/
theorem stream_after (h : s.OnPath program origin index stream done)
    (hstream : stream = takenBytes done ++ s.engine.queue.bytes) {acts : List Act}
    (hacts : ∀ a ∈ acts, a = .advance index ∨ ∃ bytes, a = .push bytes) :
    stream ++ pushed acts =
      takenBytes (done ++ s.completions index acts) ++ (s.after acts).engine.queue.bytes := by
  rw [takenBytes_append, ← h.popped_eq, List.append_assoc, ← h.queue_after hacts,
    ← List.append_assoc, ← hstream]

end OnPath

end System

end Brainfuck
