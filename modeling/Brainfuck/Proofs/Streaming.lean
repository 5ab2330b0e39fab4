import Brainfuck.Proofs.Faults

/-!
# What a run prints

The output sink is called once for each `.` that a run completes, in their order and with the byte
under the pointer, and for nothing else (`System.OnPath.printed_after`). Along a path the output of
the machine grows by the same bytes (`Sequential.Path.output_eq`), so what the sink was told is all
that a run leaves behind, and it was told before the run ended, in whichever way that was.
-/

namespace Brainfuck

/-- The bytes that operators print: for each `.` the one under the pointer. -/
def printedBytes (p : Program) (done : List Completion) : List UInt8 :=
  done.filterMap fun c => if p.op? c.ip = some .print then c.machine.tape.current? else none

@[simp] theorem printedBytes_nil (p : Program) : printedBytes p [] = [] := rfl

@[simp] theorem printedBytes_append (p : Program) (done later : List Completion) :
    printedBytes p (done ++ later) = printedBytes p done ++ printedBytes p later :=
  List.filterMap_append

theorem printedBytes_print {p : Program} {c : Completion} {cell : UInt8}
    (hop : p.op? c.ip = some .print) (hcell : c.machine.tape.current? = some cell) :
    printedBytes p [c] = [cell] := by
  simp [printedBytes, hop, hcell]

theorem printedBytes_other {p : Program} {c : Completion} {op : Op} (hop : p.op? c.ip = some op)
    (hprint : op ≠ .print) : printedBytes p [c] = [] := by
  simp [printedBytes, hop, hprint]

/-! ## The output of a machine -/

/-- Of the operators only `.` changes the output. -/
theorem Machine.perform_output {p : Program} {cell : UInt8} {m m' : Machine} {op : Op}
    (h : m.perform p cell op = .ok m') (hprint : op ≠ .print) : m'.output = m.output := by
  obtain ⟨tape, output, ip⟩ := m
  cases op with
  | print => exact absurd rfl hprint
  | increment | decrement | read => cases h; rfl
  | right | left =>
    simp only [Machine.perform] at h
    split at h <;> cases h
    rfl
  | openLoop =>
    simp only [Machine.perform] at h
    split at h
    · split at h <;> cases h
      rfl
    · cases h; rfl
  | closeLoop =>
    simp only [Machine.perform] at h
    split at h
    · cases h; rfl
    · split at h <;> cases h
      rfl

namespace Sequential

variable {p : Program} {s t : Sequential}

/-- A step adds to the output what its operator prints. -/
theorem output_of_step (h : s.step p = .next t) (hs : s.machine.tape.InBounds) :
    t.machine.output.toList =
      s.machine.output.toList ++ printedBytes p (completion? p s t).toList := by
  cases does_of_step_eq h hs with
  | comment _ hop => simp [completion?, hop, Machine.skip]
  | reads hop =>
    rw [completion?, hop, Option.map_some, Option.toList_some,
      printedBytes_other hop (by decide), List.append_nil]
    rfl
  | @performs op cell machine hop hread hcell hmachine =>
    rw [completion?, hop, Option.map_some, Option.toList_some]
    by_cases hprint : op = .print
    · subst hprint
      cases hmachine
      have hbyte := printedBytes_print (c := ⟨s.machine.ip, none, s.machine.print cell⟩) hop hcell
      simp only [if_neg hread, hbyte]
      exact Array.toList_push
    · rw [printedBytes_other hop hprint, List.append_nil]
      exact congrArg Array.toList (Machine.perform_output hmachine hprint)

/-- A path adds to the output what its operators print. -/
theorem Path.output_eq {n : Nat} {done : List Completion} (h : Path p n s done t)
    (hs : s.machine.tape.InBounds) :
    t.machine.output.toList = s.machine.output.toList ++ printedBytes p done := by
  induction h with
  | nil => exact (List.append_nil _).symm
  | cons first _ ih =>
    rw [ih (step_inBounds first hs), output_of_step first hs, printedBytes_append,
      List.append_assoc]

end Sequential

/-! ## The calls of the sink -/

/-- The byte that the output sink is called with. -/
def Event.printed? : Event → Option UInt8
  | .printed value _ => some value
  | _ => none

/-- A piece of work calls the sink for the `.` that it completes. -/
theorem Worker.printed_eq {running : Bool} {queue : ByteQueue} {w : Worker} (hw : w.Sound) :
    (w.advance running queue).events.filterMap Event.printed? =
      printedBytes w.program (w.completion? running queue).toList := by
  obtain ⟨program, machine, stalled, phase⟩ := w
  obtain ⟨bytes⟩ := queue
  have reads : program.op? machine.ip = some .read → ∀ taken m,
      printedBytes program [⟨machine.ip, taken, m⟩] = [] :=
    fun hop _ _ => printedBytes_other hop (by decide)
  cases phase with
  | ready =>
    by_cases hgo : machine.ip < program.size ∧ running = true
    · obtain ⟨hip, rfl⟩ := hgo
      cases hop : program.op? machine.ip with
      | none => simp [advance, cycle, completion?, hip, hop]
      | some op =>
        obtain ⟨cell, hcell⟩ := hw.inBounds.exists_current?
        rw [events_of_op? stalled ⟨bytes⟩ hop hcell]
        by_cases hprint : op = .print
        · subst hprint
          have hdone : completion? true ⟨bytes⟩ ⟨program, machine, stalled, .ready⟩ =
              some ⟨machine.ip, none, machine.print cell⟩ := by
            simp [completion?, advance, cycle, hip, hop, hcell]
          rw [hdone, Option.toList_some]
          exact (printedBytes_print hop hcell).symm
        · have hdone : printedBytes program
              (completion? true ⟨bytes⟩ ⟨program, machine, stalled, .ready⟩).toList = [] := by
            cases h : completion? true ⟨bytes⟩ ⟨program, machine, stalled, .ready⟩ with
            | none => rfl
            | some c =>
              obtain ⟨hc, -⟩ := op?_of_completion? hw h
              exact printedBytes_other (hc ▸ hop) hprint
          rw [if_neg hprint, hdone]
          rfl
    · simp [advance, cycle, completion?, hgo, Event.printed?]
  | fetching =>
    have hop := hw.atRead (.inl rfl)
    cases bytes with
    | nil => cases stalled <;> simp [advance, fetch, completion?, ByteQueue.pop, Event.printed?]
    | cons value rest => simp [advance, fetch, completion?, ByteQueue.pop, reads hop]
  | awaiting =>
    have hop := hw.atRead (.inr (.inr rfl))
    cases bytes with
    | nil => simp [advance, await, completion?, ByteQueue.pop]
    | cons value rest => simp [advance, await, completion?, ByteQueue.pop, reads hop]
  | announcing | printing => rfl

namespace System

variable {index : Nat} {program : Program} {origin : Machine} {stream : List UInt8}
  {done : List Completion} {s : System}

/-- The sink is called for the `.` that an act completes. -/
theorem OnPath.printed_act (h : s.OnPath program origin index stream done) :
    (s.act (.advance index)).2.filterMap Event.printed? =
      printedBytes program (s.completion? index (.advance index)).toList := by
  obtain ⟨c, hc, rfl, hfollows⟩ := h.call
  rw [act_advance_eq hc, completion?_of_call hc, if_pos rfl]
  obtain ⟨manner, program, stage⟩ := c
  cases stage with
  | active w =>
    obtain ⟨rfl, hw, -⟩ := hfollows
    rw [Stage.completion?, ← Worker.printed_eq hw]
    simp only [Call.advance]
    split <;> rfl
  | launching =>
    simp only [Call.advance]
    split <;> rfl
  | requested => cases hfollows
  | _ => rfl

/-- A run that has a result completes nothing more, whatever happens. -/
theorem OnPath.act_of_result (h : s.OnPath program origin index stream done) {r : Result}
    (hr : s.result? index = some r) (a : Act) :
    (s.act a).1.result? index = some r ∧ s.completion? index a = none := by
  have hstage := h.stage_of_result hr
  have hlater := closing_after h.exclusive (Nat.zero_le 2) hstage [a]
  rw [Nat.zero_sub, after_cons, after_nil] at hlater
  refine ⟨by rw [result?_eq, hlater]; rfl, ?_⟩
  unfold completion?
  split
  · rw [hstage]
    rfl
  · rfl

end System

/-! ## A run without a thread -/

/-- A call that is refused its thread is refused it when its program is about to be carried out. -/
theorem Call.Sees.of_refused {index flags : Nat} {c : Call} {e e' : Engine} {a : Act}
    {reason : String} (hw : ∀ w, c.stage = .active w → w.Sound)
    (h : c.Sees index e a e' (.closing (.failed (.noThread reason)) flags)) :
    c.stage = .launching ∨ ∃ flags, c.stage = .closing (.failed (.noThread reason)) flags := by
  obtain ⟨manner, program, start⟩ := c
  generalize hstage : Stage.closing (.failed (.noThread reason)) flags = stage at h
  cases h with
  | moves own move =>
    cases move with
    | starts | falters => exact .inl rfl
    | @ends w r queue events moved =>
      obtain rfl : r = .failed (.noThread reason) := by
        obtain _ | _ | _ := flags <;> cases hstage
        rfl
      -- a fault of a worker is one of an operator
      rcases Worker.ended_cases (hw w rfl) rfl moved with hdone | ⟨cause, hfailed, fails⟩
      · cases hdone
      · cases hfailed
        cases fails
    | lowers =>
      obtain _ | _ | _ := flags <;> cases hstage
      exact .inr ⟨2, rfl⟩
    | releases =>
      obtain _ | _ | _ := flags <;> cases hstage
      exact .inr ⟨1, rfl⟩
    | returned =>
      obtain _ | _ | _ := flags <;> cases hstage
      exact .inr ⟨0, rfl⟩
    | rejects | takes | clears | raises | works | rejected =>
      obtain _ | _ | _ := flags <;> cases hstage
  | breaks own broken =>
    cases broken with
    | refused | roomless => exact .inl rfl
    | hook => obtain _ | _ | _ := flags <;> cases hstage
    | rests => exact .inr ⟨flags, hstage.symm⟩
  | pushes | stops | others => exact .inr ⟨flags, hstage.symm⟩

namespace System

variable {index : Nat} {program : Program} {origin : Machine} {stream : List UInt8}
  {done : List Completion} {s : System}

/-- If call number `index` is refused its thread, this is what it has completed. -/
def Refused (index : Nat) (done : List Completion) (s : System) : Prop :=
  ∀ reason flags, s.stage? index = some (.closing (.failed (.noThread reason)) flags) → done = []

theorem OnPath.refused_act (h : s.OnPath program origin index stream done)
    (hrefused : s.Refused index done) (a : Act) :
    (s.act a).1.Refused index (done ++ (s.completion? index a).toList) := by
  intro reason flags hstage
  obtain ⟨c, hc, -, hfollows⟩ := h.call
  obtain ⟨stage, hc', sees⟩ := (s.acts a).sees h.exclusive hc
  obtain rfl : stage = .closing (.failed (.noThread reason)) flags :=
    Option.some.inj ((stage?_of_call hc').symm.trans hstage)
  have hsound : ∀ w, c.stage = .active w → w.Sound := by
    intro w hw
    rw [hw] at hfollows
    exact hfollows.2.1
  have hnone : c.stage.completion? s.engine = none ∧ done = [] := by
    rcases sees.of_refused hsound with hlaunching | ⟨flags', hclosing⟩
    · rw [hlaunching] at hfollows ⊢
      exact ⟨rfl, hfollows.2⟩
    · refine ⟨?_, hrefused reason flags' (hclosing ▸ stage?_of_call hc)⟩
      rw [hclosing]
      obtain _ | _ | _ := flags' <;> rfl
  rw [completion?_of_call hc, hnone.1, hnone.2]
  split <;> rfl

/-- A call that is refused its thread completes no operator. -/
theorem OnPath.refused_after (h : s.OnPath program origin index stream done)
    (hrefused : s.Refused index done) (acts : List Act) :
    (s.after acts).Refused index (done ++ s.completions index acts) := by
  induction acts generalizing s stream done with
  | nil => simpa [completions] using hrefused
  | cons a acts ih =>
    simpa [completions, List.append_assoc] using ih (h.act a) (h.refused_act hrefused a)

/-- What a run with an outcome leaves behind is what it has printed. -/
theorem OnPath.output_eq (h : s.OnPath program origin index stream done) {o : Outcome}
    (hr : s.result? index = some (.done o)) :
    o.output.toList = origin.output.toList ++ printedBytes program done := by
  obtain ⟨n, t, path, explains⟩ := h.path_of_closing (h.stage_of_result hr)
  have horigin := Machine.start_inBounds h.start
  generalize hresult : Result.done o = r at explains
  cases explains with
  | done =>
    cases hresult
    exact path.output_eq horigin
  | @failed failure => cases failure <;> cases hresult
  | refused | crashed => cases hresult

end System

end Brainfuck
