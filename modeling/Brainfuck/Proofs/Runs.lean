import Brainfuck.Proofs.Outlook

/-!
# Runs with their futures

A run that starts with an empty queue, goes on again and again and is not disturbed (`System.Runs`)
has exactly one future, which is that of a fresh machine on the stream of its input
(`Runs.exists_destined`). So has one that is put to work on a machine that another run has left behind
(`System.resume`). What two runs have in common is then a matter of their machines alone.
-/

namespace Brainfuck

namespace System

variable {memory index time : Nat} {program : Program} {stream : ByteStream} {sched : Nat → Act}
  {s : System} {a : Act} {m : Machine} {f : Future} {bytes : List UInt8} {done : List Completion}

/-! ## From the start of a call -/

/-- On this schedule call number `index` is left to run the program on `memory` cells and with this
input. -/
structure Runs (memory : Nat) (program : Program) (index : Nat) (stream : ByteStream)
    (sched : Nat → Act) (s : System) : Prop where
  begun : s.Begun memory program index
  steady : Steady index sched
  receives : s.Receives stream sched

/-- What others do leaves a call at its stage. -/
theorem OnPath.act_other (h : s.OnPath program m index bytes done) (ha : ¬ a.Disturbs index)
    (hother : a ≠ .advance index) : (s.act a).1.stage? index = s.stage? index := by
  obtain ⟨c, hc, -, -⟩ := h.call
  obtain ⟨stage, hc', sees⟩ := (s.acts a).sees h.exclusive hc
  rw [stage?_of_call hc', stage?_of_call hc]
  generalize (s.act a).1.engine = e at sees
  cases sees with
  | moves own => exact absurd own hother
  | breaks own => exact absurd (.inr own) ha
  | pushes | stops | others => rfl

/-- A call that has set the running flag gets its worker in its next act. -/
theorem OnPath.act_launching (h : s.OnPath program m index bytes done) (hs : s.Undisturbed index)
    (hstage : s.stage? index = some .launching) :
    done = [] ∧ s.completion? index (.advance index) = none ∧
      ∃ distance, (s.act (.advance index)).1.Carries program index ⟨m, bytes⟩ distance := by
  obtain ⟨c, hc, rfl, -⟩ := h.call
  obtain ⟨stage, hc', sees⟩ := (s.acts (.advance index)).sees h.exclusive hc
  obtain ⟨hqueue, hdone⟩ := h.follows hstage
  have hrunning : s.engine.running = true := hs _ hstage
  have hmove := sees.move
  rw [Option.some.inj ((stage?_of_call hc).symm.trans hstage)] at hmove
  generalize he : (s.act (.advance index)).1.engine = e at hmove
  refine ⟨hdone, by simp [completion?, hstage, Stage.completion?], ?_⟩
  cases hmove with
  | starts worker =>
    obtain ⟨machine, hmachine, rfl⟩ := Worker.launch_eq_ok worker
    cases h.start.symm.trans hmachine
    refine ⟨_, by rw [he]; exact hrunning, _, _, hc', rfl, rfl,
      Worker.sound_of_ready (Machine.start_inBounds hmachine), ?_, rfl⟩
    rw [he, Worker.sequential, hqueue]
  | falters worker =>
    unfold Worker.launch at worker
    rw [h.start] at worker
    cases worker

/-- A call that has emptied the queue gets its worker in its second act. -/
theorem Begun.starts (h : s.Begun memory program index) (hstart : Machine.start memory = .ok m)
    (hsched : Steady index sched) : ∃ time, s.Reached program index m sched 0 time := by
  obtain ⟨origin, hstart', hpath⟩ := h.onPath
  cases hstart.symm.trans hstart'
  have early : ∀ time, (∃ time, s.Reached program index m sched 0 time) ∨
      turns index sched 0 time ≤ 1 ∧ (s.after (upTo sched time)).stage? index =
        some (if turns index sched 0 time = 0 then .cleared else .launching) := by
    intro time
    induction time with
    | zero => exact .inr ⟨Nat.zero_le _, h.stage?_eq⟩
    | succ time ih =>
      rcases ih with hstarts | ⟨hle, hstage⟩
      · exact .inl hstarts
      · have honPath := hpath.after (upTo sched time)
        have hafter := s.after_upTo_succ sched time
        rw [hafter, turns, Nat.zero_add]
        by_cases hown : sched time = .advance index
        · rw [if_pos hown, hown]
          by_cases hturns : turns index sched 0 time = 0
          · -- the act sets the running flag
            rw [if_pos hturns] at hstage
            obtain ⟨e, stage, move, hnext⟩ := honPath.exists_move hstage
            cases move
            exact .inr ⟨by omega, by rw [hnext, if_neg (by omega)]⟩
          · rw [if_neg hturns] at hstage
            have hundisturbed := hpath.undisturbed_after h.undisturbed
              (not_disturbs_upTo hsched.undisturbed time)
            obtain ⟨hdone, hnone, distance, carries⟩ :=
              honPath.act_launching hundisturbed hstage
            rw [List.nil_append] at hdone carries
            have hcompletions : s.completions index (upTo sched (time + 1)) = [] := by
              rw [upTo_succ, completions_append, hdone, hown]
              simp [completions, hnone]
            have harrived : s.arrived sched (time + 1) = pushed (upTo sched time) := by
              rw [arrived, h.queue_eq, upTo_succ, pushed_append, hown]
              simp
            refine .inl ⟨time + 1, ⟨m, pushed (upTo sched time)⟩, distance, ?_, ?_⟩
            · rw [hcompletions, harrived]
              exact .nil
            · rw [hafter, hown]
              exact carries
        · rw [honPath.act_other (hsched.undisturbed time) hown, if_neg hown]
          exact .inr ⟨hle, hstage⟩
  obtain ⟨acts, hacts⟩ := exists_turns hsched.fair 0 2
  rcases early acts with hstarts | ⟨hle, -⟩
  · exact hstarts
  · omega

theorem Runs.exists_start (h : s.Runs memory program index stream sched) :
    ∃ m, Machine.start memory = .ok m := by
  obtain ⟨m, hstart, -⟩ := h.begun.onPath
  exact ⟨m, hstart⟩

theorem Runs.pursues (h : s.Runs memory program index stream sched)
    (hstart : Machine.start memory = .ok m) : s.Pursues program index m stream sched := by
  obtain ⟨origin, -, hpath⟩ := h.begun.onPath
  exact ⟨hpath.exclusive, Machine.start_inBounds hstart, h.steady, h.receives,
    h.begun.starts hstart h.steady⟩

/-- A run has one future, which is that of a fresh machine. -/
theorem Runs.exists_destined (h : s.Runs memory program index stream sched)
    (hstart : Machine.start memory = .ok m) :
    ∃ f, m.Meets program stream f ∧ s.Destined index sched f := by
  obtain ⟨f, hmeets⟩ := m.exists_meets program stream (Machine.start_inBounds hstart)
  exact ⟨f, hmeets, (h.pursues hstart).destined hmeets⟩

/-- A call that has returned has come to its future. -/
theorem Exclusive.meets_of_closing (hs : s.Exclusive) {r : Result}
    (h : (s.after (upTo sched time)).stage? index = some (.closing r 0)) :
    s.Meets index sched (.returns r) := by
  refine .returns ⟨time, fun later hlater => ?_⟩
  obtain ⟨more, rfl⟩ := Nat.exists_eq_add_of_le hlater
  have hstage := closing_after (hs.after _) (Nat.zero_le 2) h (upTo (since sched time) more)
  rw [after_since, result?_eq, hstage, Nat.zero_sub]
  rfl

theorem Runs.meets_of_result (h : s.Runs memory program index stream sched) {r : Result}
    (hr : (s.after (upTo sched time)).result? index = some r) :
    s.Meets index sched (.returns r) := by
  obtain ⟨origin, -, hpath⟩ := h.begun.onPath
  exact hpath.exclusive.meets_of_closing ((hpath.after (upTo sched time)).stage_of_result hr)

/-- At every time the run is on the path of its machine on the stream. -/
theorem Runs.exists_path (h : s.Runs memory program index stream sched)
    (hstart : Machine.start memory = .ok m) (time : Nat) :
    ∃ n k t, Sequential.Path program n ⟨m, stream.take k⟩
        (s.completions index (upTo sched time)) t ∧
      ∀ m', (s.after (upTo sched time)).machine? index = some m' → t.machine = m' := by
  obtain ⟨origin, hstart', hpath⟩ := h.begun.onPath
  cases hstart.symm.trans hstart'
  obtain ⟨c, hc, -, hfollows⟩ := (hpath.after (upTo sched time)).call
  obtain ⟨k, harrived⟩ := h.receives.some time
  rw [arrived, h.begun.queue_eq] at harrived
  rw [harrived, List.nil_append] at hfollows
  rw [machine?, hc, Option.bind_some, Call.machine?]
  cases hstage : c.stage with
  | active w =>
    rw [hstage] at hfollows
    obtain ⟨-, -, n, path⟩ := hfollows
    exact ⟨n, k, _, path, fun m' hm' => Option.some.inj hm'⟩
  | _ =>
    obtain ⟨n, t, path⟩ := hfollows.path
    refine ⟨n, k, t, path, fun m' hm' => ?_⟩
    cases hm'

/-- A run completes no other operators than those on the path to the state at which its machine
halts. -/
theorem Runs.completions_prefix (h : s.Runs memory program index stream sched)
    (hstart : Machine.start memory = .ok m) {n k : Nat} {t : Sequential}
    (path : Sequential.Path program n ⟨m, stream.take k⟩ done t) {r : Result}
    (ends : Sequential.Ends program t r) (time : Nat) :
    s.completions index (upTo sched time) <+: done := by
  have hm := Machine.start_inBounds hstart
  obtain ⟨n', k', t', path', -⟩ := h.exists_path hstart time
  obtain ⟨_, more, _, hpath, hpath'⟩ := path.meet hm path'
  have hle := hpath.le_of_stuck (ends.feed (path.inBounds hm) more).stuck hpath'
  obtain ⟨later, rfl, -⟩ := hpath'.split hpath hle
  exact List.prefix_append ..

/-- When its machine halts with a result a run has completed what lies before, and taken the bytes
for it. -/
theorem Runs.eventually_completes (h : s.Runs memory program index stream sched)
    (hstart : Machine.start memory = .ok m) {n k : Nat} {t : Sequential}
    (path : Sequential.Path program n ⟨m, stream.take k⟩ done t) {r : Result}
    (ends : Sequential.Ends program t r) : ∃ time, ∀ later, time ≤ later →
      s.completions index (upTo sched later) = done ∧
        s.popped index (upTo sched later) = takenBytes done := by
  obtain ⟨origin, -, hpath⟩ := h.begun.onPath
  obtain ⟨time, -, hdone⟩ := (h.pursues hstart).exists_machine path
  refine ⟨time, fun later hlater => ?_⟩
  obtain ⟨more, rfl⟩ := Nat.exists_eq_add_of_le hlater
  have hle := h.completions_prefix hstart path ends (time + more)
  have hge : done <+: s.completions index (upTo sched (time + more)) := by
    rw [completions_since, hdone]
    exact List.prefix_append ..
  have hall := hle.eq_of_length_le hge.length_le
  exact ⟨hall, by rw [hpath.popped_eq, hall]⟩

/-! ## From where another run has ended -/

/-- An engine whose only call carries out the program from the machine on, while these bytes wait. -/
def resume (memory : Nat) (program : Program) (m : Machine) (queue : ByteQueue) : System :=
  ⟨⟨memory, queue, true, true⟩, #[⟨.run, program, .active ⟨program, m, false, .ready⟩⟩]⟩

variable {queue : ByteQueue}

theorem stage?_resume (i : Nat) : (resume memory program m queue).stage? i =
    if i = 0 then some (.active ⟨program, m, false, .ready⟩) else none := by
  cases i <;> rfl

theorem exclusive_resume : (resume memory program m queue).Exclusive := by
  have hfirst : ∀ {i}, (resume memory program m queue).Owns i → i = 0 := by
    rintro i ⟨stage, hstage, -⟩
    rw [stage?_resume] at hstage
    by_cases hi : i = 0
    · exact hi
    · rw [if_neg hi] at hstage
      cases hstage
  exact ⟨fun hi hj => (hfirst hi).trans (hfirst hj).symm,
    ⟨fun _ => ⟨0, _, stage?_resume 0, rfl⟩, fun _ => rfl⟩, fun _ => ⟨0, _, stage?_resume 0, rfl⟩⟩

theorem pursues_resume (hm : m.tape.InBounds) (hsched : Steady 0 sched)
    (hreceives : (resume memory program m queue).Receives stream sched) :
    (resume memory program m queue).Pursues program 0 m stream sched := by
  refine ⟨exclusive_resume, hm, hsched, hreceives, 0, ⟨m, queue.bytes⟩, _, ?_, rfl, _, _, rfl, rfl,
    rfl, Worker.sound_of_ready hm, rfl, rfl⟩
  rw [show (resume memory program m queue).arrived sched 0 = queue.bytes from List.append_nil _]
  exact .nil

/-! ## A schedule that gives all the input at once -/

/-- The bytes are pushed first, and then call number `index` goes on. -/
def eager (index : Nat) (bytes : List UInt8) : Nat → Act :=
  fun time => if time = 0 then .push bytes else .advance index

theorem steady_eager (index : Nat) (bytes : List UInt8) : Steady index (eager index bytes) where
  fair time := ⟨time + 1, Nat.le_succ time, if_neg (Nat.succ_ne_zero time)⟩
  undisturbed time := by
    unfold eager
    split
    · exact Act.not_disturbs (i := index) (.inr ⟨bytes, rfl⟩)
    · exact Act.not_disturbs (.inl rfl)

theorem pushed_eager (index : Nat) (bytes : List UInt8) (time : Nat) :
    pushed (upTo (eager index bytes) (time + 1)) = bytes := by
  induction time with
  | zero => exact List.append_nil bytes
  | succ time ih =>
    rw [upTo_succ, pushed_append, ih]
    exact List.append_nil bytes

theorem receives_eager (s : System) (index : Nat) (bytes : List UInt8) :
    s.Receives (.ofList (s.engine.queue.bytes ++ bytes)) (eager index bytes) where
  some time := by
    cases time with
    | zero =>
      refine ⟨s.engine.queue.bytes.length, ?_⟩
      rw [ByteStream.take_ofList, List.take_left]
      exact List.append_nil _
    | succ time =>
      refine ⟨(s.engine.queue.bytes ++ bytes).length, ?_⟩
      rw [ByteStream.take_ofList, List.take_length, arrived, pushed_eager]
  all k := by
    refine ⟨1, ?_⟩
    rw [ByteStream.take_ofList, arrived, pushed_eager]
    exact List.take_prefix k _

/-- A new engine whose first call has just emptied the queue. -/
def cleared (memory : Nat) (program : Program) : System :=
  ⟨⟨memory, .empty, false, true⟩, #[⟨.run, program, .cleared⟩]⟩

theorem runs_eager (hmemory : memory ≠ 0) (program : Program) (bytes : List UInt8) :
    (cleared memory program).Runs memory program 0 (.ofList bytes) (eager 0 bytes) where
  begun := ⟨⟨⟨memory, .empty, false, false⟩, #[]⟩, [.call .run program, .advance 0], _,
    by simp [System.new, Engine.new, hmemory], rfl, rfl, rfl, rfl⟩
  steady := steady_eager 0 bytes
  receives := receives_eager (cleared memory program) 0 bytes

end System

end Brainfuck
