import Brainfuck.Proofs.Course

/-!
# Every byte is read once, in its turn

The bytes that are pushed to a run are a stream: at every moment what the completed `,` have taken
and what still waits in the queue are together what was pushed since the run emptied the queue, in
the order of the pushes (`OnPath.stream_owned`). One act takes the first byte if it completes a `,`
and otherwise none (`OnPath.act_takes`), whoever else pushes bytes, is turned away or asks for a
stop meanwhile.

The run empties the queue before it sets the running flag, so whoever knows that the run has begun
pushes to this stream (`input_is_conserved`).
-/

namespace Brainfuck.System

variable {memory index : Nat} {program : Program} {origin : Machine} {stream : List UInt8}
  {done : List Completion} {fresh s : System}

namespace OnPath

/-- A run that owns the engine has owned it since it emptied the queue. -/
theorem owns_of_owns_act (h : s.OnPath program origin index stream done) {a : Act}
    (howns : (s.act a).1.Owns index) : s.Owns index := by
  obtain ⟨c, hc, -, hfollows⟩ := h.call
  refine (inStage_call hc _).mpr ?_
  cases hstage : c.stage with
  | returned r =>
    -- who has released the engine does not take it again
    have hclosed : s.stage? index = some (.closing r 0) := by rw [stage?_of_call hc, hstage]; rfl
    have hafter := closing_after h.exclusive (Nat.zero_le 2) hclosed [a]
    obtain ⟨stage, hstage', hkind⟩ := howns
    rw [after_cons, after_nil, hstage', Nat.zero_sub] at hafter
    cases hafter
    cases hkind
  | requested | rejected | taken =>
    rw [hstage] at hfollows
    cases hfollows
  | _ => rfl

/-- The stream of a run that owns the engine is what its operators have taken and what waits. -/
theorem stream_owned (h : s.OnPath program origin index stream done) (howns : s.Owns index) :
    stream = takenBytes done ++ s.engine.queue.bytes := by
  obtain ⟨c, hc, -, hfollows⟩ := h.call
  exact hfollows.stream_eq (Machine.start_inBounds h.start) ((inStage_call hc _).mp howns)

/-- Whoever acts, what leaves the queue is what the act's operator takes, and what comes is what the
act pushes. -/
theorem queue_owned (h : s.OnPath program origin index stream done) {a : Act}
    (howns : (s.act a).1.Owns index) : s.engine.queue.bytes ++ a.pushed =
      takenBytes (s.completion? index a).toList ++ (s.act a).1.engine.queue.bytes := by
  -- both sides are the stream after the act, behind what was taken before it
  have hbefore := h.stream_owned (h.owns_of_owns_act howns)
  have hafter := (h.act a).stream_owned howns
  rw [takenBytes_append, hbefore, List.append_assoc, List.append_assoc] at hafter
  exact List.append_cancel_left hafter

/-- An operator is completed by an act of the run itself, which pushes nothing. -/
theorem pushed_of_completion? {a : Act} {c : Completion} (hc : s.completion? index a = some c) :
    a.pushed = [] := by
  by_cases ha : a = .advance index
  · rw [ha, Act.pushed_advance]
  · rw [completion?, if_neg ha] at hc
    cases hc

/-- Of the operators exactly `,` takes a byte when it is completed. -/
theorem taken_iff (h : s.OnPath program origin index stream done) {a : Act} {c : Completion}
    (hc : s.completion? index a = some c) :
    program.op? c.ip = some .read ↔ ∃ value, c.taken = some value := by
  obtain ⟨call, hcall, -, hfollows⟩ := h.call
  unfold completion? at hc
  split at hc
  · rw [stage?_of_call hcall, Option.bind_some] at hc
    cases hstage : call.stage with
    | active w =>
      rw [hstage] at hc hfollows
      obtain ⟨rfl, hw, -⟩ := hfollows
      exact Worker.completion?_taken hw hc
    | _ =>
      rw [hstage] at hc
      cases hc
  · cases hc

/-- An act completes a `,` and takes the first byte of the queue for it, or it completes no `,` and
takes nothing. -/
theorem act_takes (h : s.OnPath program origin index stream done) {a : Act}
    (howns : (s.act a).1.Owns index) :
    (∃ c value, s.completion? index a = some c ∧ program.op? c.ip = some .read ∧
      c.taken = some value ∧ s.engine.queue.bytes = value :: (s.act a).1.engine.queue.bytes) ∨
    ((∀ c, s.completion? index a = some c → program.op? c.ip ≠ some .read) ∧
      (s.act a).1.engine.queue.bytes = s.engine.queue.bytes ++ a.pushed) := by
  have hqueue := h.queue_owned howns
  cases hc : s.completion? index a with
  | none =>
    rw [hc] at hqueue
    exact .inr ⟨nofun, hqueue.symm⟩
  | some c =>
    rw [hc, Option.toList_some] at hqueue
    have hiff := h.taken_iff hc
    cases htaken : c.taken with
    | none =>
      refine .inr ⟨fun c' hc' hread => ?_, by simpa [takenBytes, htaken] using hqueue.symm⟩
      cases hc'
      obtain ⟨value, hvalue⟩ := hiff.mp hread
      rw [htaken] at hvalue
      cases hvalue
    | some value =>
      refine .inl ⟨c, value, rfl, hiff.mpr ⟨value, htaken⟩, htaken, ?_⟩
      simpa [takenBytes, htaken, pushed_of_completion? hc] using hqueue

end OnPath

/-! ## The stream of a run -/

/-- The rules for the bytes of a run of the program, when these acts have happened since it emptied
the queue. -/
structure Streams (program : Program) (index : Nat) (s : System) (acts : List Act) : Prop where
  /-- What was pushed is what the completed operators have taken, in order, and then what waits. -/
  conserved : pushed acts =
    takenBytes (s.completions index acts) ++ (s.after acts).engine.queue.bytes
  /-- The bytes of one push stand together, behind those of the pushes before it. -/
  contiguous : ∀ before bytes later, acts = before ++ .push bytes :: later →
    takenBytes (s.completions index acts) ++ (s.after acts).engine.queue.bytes =
      pushed before ++ bytes ++ pushed later
  /-- The next act takes the first byte for a `,` that it completes, or it completes no `,` and takes
  nothing. -/
  takes : ∀ a, (s.after (acts ++ [a])).Owns index →
    (∃ c value, (s.after acts).completion? index a = some c ∧ program.op? c.ip = some .read ∧
      c.taken = some value ∧
      (s.after acts).engine.queue.bytes = value :: (s.after (acts ++ [a])).engine.queue.bytes) ∨
    ((∀ c, (s.after acts).completion? index a = some c → program.op? c.ip ≠ some .read) ∧
      (s.after (acts ++ [a])).engine.queue.bytes =
        (s.after acts).engine.queue.bytes ++ a.pushed)

theorem Begun.streams (h : s.Begun memory program index) {acts : List Act}
    (howns : (s.after acts).Owns index) : s.Streams program index acts := by
  obtain ⟨origin, -, hpath⟩ := h.onPath
  have hafter := hpath.after acts
  rw [List.nil_append, List.nil_append] at hafter
  have hconserved := hafter.stream_owned howns
  refine ⟨hconserved, fun before bytes later hacts => ?_, fun a howns' => ?_⟩
  · rw [← hconserved, hacts, pushed_append, pushed_cons, ← List.append_assoc]
    rfl
  · rw [after_append, after_cons, after_nil] at howns' ⊢
    exact hafter.act_takes howns'

/-- The bytes that are pushed to a run, by whomever and in whatever pieces, are read once each and in
their order: from the act in which the run empties the queue to the one in which it releases the
engine the rules of `Streams` hold. What is pushed when somebody can know that the run has begun,
and before the run releases the engine, belongs to this stream. -/
theorem input_is_conserved (h : System.new memory = .ok fresh) (index : Nat) :
    (∀ before c since, (fresh.after before).calls[index]? = some c → c.stage = .taken →
      (fresh.after (before ++ .advance index :: since)).Owns index →
        (fresh.after (before ++ [.advance index])).Streams c.program index since) ∧
    ∀ seen later, (fresh.after seen).Announced index →
      (fresh.after (seen ++ later)).Owns index →
      ∃ before since, seen = before ++ .advance index :: since ∧
        (fresh.after before).stage? index = some .taken ∧
        pushed since ++ pushed later =
          takenBytes ((fresh.after (before ++ [.advance index])).completions index
            (since ++ later)) ++ (fresh.after (seen ++ later)).engine.queue.bytes := by
  constructor
  · intro before c since hc htaken howns
    rw [← List.singleton_append, ← List.append_assoc, after_append] at howns
    have begun : (fresh.after (before ++ [.advance index])).Begun memory c.program index :=
      ⟨fresh, before, c, h, hc, rfl, htaken, after_append ..⟩
    exact begun.streams howns
  · intro seen later hannounced howns
    have hraised := hannounced.raised (exclusive_after h seen)
    obtain ⟨c, before, since, rfl, -, htaken, begun⟩ := hraised.exists_begun h
    have hafter : fresh.after (before ++ .advance index :: since ++ later) =
        (fresh.after (before ++ [.advance index])).after (since ++ later) := by
      rw [← after_append]
      simp
    rw [hafter] at howns ⊢
    refine ⟨before, since, rfl, htaken, ?_⟩
    rw [← pushed_append]
    exact (begun.streams howns).conserved

/-- Bytes that are pushed before the run begins, while it begins, and when the running flag has been
seen. -/
theorem input_is_conserved_of_three_pushes :
    let fresh : System := ⟨⟨1, .empty, false, false⟩, #[]⟩
    let echo : Program := ⟨#[some .read, some .print]⟩
    let before : List Act := [.push [1], .call .run echo, .advance 0]
    let since : List Act := [.push [2], .advance 0]
    let later : List Act := [.push [3, 4], .advance 0, .advance 0, .advance 0]
    let s := fresh.after (before ++ [.advance 0])
    System.new 1 = .ok fresh ∧ (fresh.after (before ++ .advance 0 :: since)).Announced 0 ∧
      takenBytes (s.completions 0 (since ++ later)) = [2] ∧
      (s.after (since ++ later)).engine.queue.bytes = [3, 4] ∧
      s.Streams echo 0 (since ++ later) ∧
      ∃ before' since', before ++ .advance 0 :: since = before' ++ .advance 0 :: since' ∧
        (fresh.after before').stage? 0 = some .taken := by
  intro fresh echo before since later s
  have new : System.new 1 = .ok fresh := rfl
  have owns : (fresh.after (before ++ .advance 0 :: (since ++ later))).Owns 0 := by decide
  have announced : (fresh.after (before ++ .advance 0 :: since)).Announced 0 :=
    .inl ⟨by decide, by decide⟩
  have taken : (fresh.after before).calls[0]? = some ⟨.run, echo, .taken⟩ := by decide
  obtain ⟨rules, known⟩ := input_is_conserved new 0
  obtain ⟨before', since', hsplit, hstage, -⟩ :=
    known (before ++ .advance 0 :: since) later announced (by decide)
  exact ⟨new, announced, by decide, by decide, rules before _ (since ++ later) taken rfl owns,
    before', since', hsplit, hstage⟩

end Brainfuck.System
