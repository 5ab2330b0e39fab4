import Brainfuck.Proofs.Showing
import Brainfuck.Proofs.Streaming

/-!
# The output sink follows the output

The sink is called with a byte and with all bytes up to it. At any time of a run, and however the
run has ended, its calls are those of the `.` that were carried out, one each and in their order;
the totals are the beginnings of the row of bytes; and the bytes are what the machine has printed so
far, which is what an outcome leaves behind (`System.sink_follows_output`). A run that leaves no
outcome was cut off by one act (`System.CutOff`). The sink has then been told what was printed
before it, and if it was the sink itself that broke off, also the byte of that call.

The invariant is `Heard`: what was told is what was printed, and a worker inside the sink has just
told the cell under its pointer. One piece of work keeps it because it tells the sink at most one
byte, and tells it what it adds to the output (`Worker.sinkCalls_of_advance`,
`Worker.output_of_advance`).
-/

namespace Brainfuck

/-- What the output sink is called with. -/
structure SinkCall where
  byte : UInt8
  /-- The bytes of all calls of the run up to this one. -/
  total : List UInt8
  deriving DecidableEq

namespace Event

/-- The call of the output sink that an event is. -/
def sinkCall? : Event → Option SinkCall
  | .printed value total => some ⟨value, total.toList⟩
  | _ => none

/-- The cell under the pointer when a cycle reaches a `.`. -/
def printStep? : Event → Option UInt8
  | .step _ .print _ cell => some cell
  | _ => none

end Event

/-- The bytes of the calls of the sink. -/
def sinkBytes (calls : List SinkCall) : List UInt8 :=
  calls.map SinkCall.byte

theorem sinkBytes_eq (events : List Event) :
    sinkBytes (events.filterMap Event.sinkCall?) = events.filterMap Event.printed? := by
  rw [sinkBytes, List.map_filterMap]
  congr 1
  funext event
  cases event <;> rfl

theorem sinkBytes_append (calls later : List SinkCall) :
    sinkBytes (calls ++ later) = sinkBytes calls ++ sinkBytes later :=
  List.map_append

/-- Each call hands over all bytes up to its own. -/
def Cumulative (calls : List SinkCall) : Prop :=
  ∀ k call, calls[k]? = some call → call.total = (sinkBytes calls).take (k + 1)

theorem Cumulative.concat {calls : List SinkCall} (h : Cumulative calls) (byte : UInt8) :
    Cumulative (calls ++ [⟨byte, sinkBytes calls ++ [byte]⟩]) := by
  intro k call hcall
  have hbytes : sinkBytes (calls ++ [⟨byte, sinkBytes calls ++ [byte]⟩]) =
      sinkBytes calls ++ [byte] := List.map_append
  have hlength : (sinkBytes calls).length = calls.length := List.length_map _
  rw [hbytes]
  by_cases hk : k < calls.length
  · rw [List.getElem?_append_left hk] at hcall
    rw [List.take_append_of_le_length (by omega)]
    exact h k call hcall
  · rw [List.getElem?_append_right (by omega), List.getElem?_singleton] at hcall
    split at hcall
    · cases hcall
      exact (List.take_of_length_le (by simp; omega)).symm
    · cases hcall

namespace Worker

variable {running : Bool} {queue queue' : ByteQueue} {w w' : Worker} {progress : Progress}
  {events : List Event}

/-- Only a `.` brings a worker into the sink. -/
theorem phase_ne_printing {program : Program} {machine : Machine} {stalled : Bool} {op : Op}
    {cell : UInt8} (hop : program.op? machine.ip = some op)
    (hcell : machine.tape.current? = some cell) (hprint : op ≠ .print)
    (moved : advance true queue ⟨program, machine, stalled, .ready⟩ =
      ⟨.working w', queue', events⟩) : w'.phase ≠ .printing := by
  have hip := Program.lt_size_of_op?_eq_some hop
  simp only [advance, cycle, hip, hop, hcell, decide_true, Bool.and_true, if_true] at moved
  intro hphase
  cases op with
  | print => exact absurd rfl hprint
  | read =>
    cases moved
    cases hphase
  | _ =>
    dsimp only at moved
    split at moved <;> cases moved
    cases hphase

/-- A piece of work calls the sink once, for the `.` that it carries out, and is inside the sink
then, or it does not call it. -/
theorem sinkCalls_of_advance (hw : w.Sound)
    (moved : w.advance running queue = ⟨progress, queue', events⟩) :
    (events.filterMap Event.sinkCall? = [] ∧ events.filterMap Event.printStep? = [] ∧
      ∀ w', progress = .working w' → w'.phase ≠ .printing) ∨
    ∃ cell, w.program.op? w.machine.ip = some .print ∧ w.machine.tape.current? = some cell ∧
      progress = .working ⟨w.program, w.machine.print cell, w.stalled, .printing⟩ ∧
      events.filterMap Event.printStep? = [cell] ∧
      events.filterMap Event.sinkCall? = [⟨cell, w.machine.output.toList ++ [cell]⟩] := by
  obtain ⟨program, machine, stalled, phase⟩ := w
  obtain ⟨bytes⟩ := queue
  cases phase with
  | ready =>
    by_cases hgo : machine.ip < program.size ∧ running = true
    · obtain ⟨hip, rfl⟩ := hgo
      obtain ⟨cell, hcell⟩ := hw.inBounds.exists_current?
      cases hop : program.op? machine.ip with
      | none =>
        simp only [advance, cycle, hip, hop, decide_true, Bool.and_true, if_true] at moved
        cases moved
        exact .inl ⟨rfl, rfl, by rintro _ ⟨⟩ ⟨⟩⟩
      | some op =>
        by_cases hprint : op = .print
        · subst hprint
          simp only [advance, cycle, hip, hop, hcell, decide_true, Bool.and_true, if_true] at moved
          cases moved
          refine .inr ⟨cell, rfl, hcell, rfl, rfl, ?_⟩
          exact congrArg (fun total => [SinkCall.mk cell total]) Array.toList_push
        · have hevents := events_of_op? stalled ⟨bytes⟩ hop hcell
          rw [moved, if_neg hprint] at hevents
          obtain rfl : events = _ := hevents
          refine .inl ⟨rfl, ?_, ?_⟩
          · cases op <;> first | rfl | exact absurd rfl hprint
          · rintro w' rfl
            exact phase_ne_printing hop hcell hprint moved
    · simp [advance, cycle, hgo] at moved
      obtain ⟨rfl, rfl, rfl⟩ := moved
      exact .inl ⟨rfl, rfl, by rintro _ ⟨⟩⟩
  | fetching =>
    cases bytes with
    | nil =>
      cases stalled <;> cases moved <;> exact .inl ⟨rfl, rfl, by rintro _ ⟨⟩ ⟨⟩⟩
    | cons value rest =>
      cases moved
      exact .inl ⟨rfl, rfl, by rintro _ ⟨⟩ ⟨⟩⟩
  | awaiting =>
    cases bytes with
    | nil =>
      cases moved
      exact .inl ⟨rfl, rfl, by rintro _ ⟨⟩ ⟨⟩⟩
    | cons value rest =>
      cases moved
      exact .inl ⟨rfl, rfl, by rintro _ ⟨⟩ ⟨⟩⟩
  | announcing | printing =>
    cases moved
    exact .inl ⟨rfl, rfl, by rintro _ ⟨⟩ ⟨⟩⟩

/-- What a worker has printed grows by what it tells the sink. -/
theorem output_of_advance (hw : w.Sound)
    (moved : w.advance running queue = ⟨.working w', queue', events⟩) :
    w'.machine.output.toList =
      w.machine.output.toList ++ sinkBytes (events.filterMap Event.sinkCall?) := by
  have effect := effect_of_eq hw moved
  have hprinted : (w.advance running queue).events.filterMap Event.printed? =
      printedBytes w.program (w.completion? running queue).toList := printed_eq hw
  rw [moved] at hprinted
  rw [sinkBytes_eq, hprinted]
  generalize w.completion? running queue = done at effect
  cases effect with
  | rests _ machine =>
    rw [machine]
    exact (List.append_nil _).symm
  | steps _ _ next => exact Sequential.output_of_step next hw.inBounds

end Worker

/-! ## The calls of a run -/

/-- What the sink has been told of a run whose call is at this stage. -/
def Stage.Told (calls : List SinkCall) : Stage → Prop
  | .active w => sinkBytes calls = w.machine.output.toList ∧ (w.phase = .printing →
    ∃ ip cell, w.machine.ip = ip + 1 ∧ w.program.op? ip = some .print ∧
      w.machine.tape.current? = some cell ∧
      calls.getLast? = some ⟨cell, w.machine.output.toList⟩)
  | .lowering r | .releasing r | .returned r => ∀ o, r = .done o → sinkBytes calls = o.output.toList
  | _ => calls = []

theorem Stage.told_iff_of_unstarted {calls : List SinkCall} {stage : Stage}
    (h : stage.unstarted = true) : stage.Told calls ↔ calls = [] := by
  cases stage with
  | requested | rejected | taken | cleared | launching => exact Iff.rfl
  | _ => cases h

/-- The act that ends a run does not call the sink. -/
theorem Stage.Shows.silent_of_ends {program : Program} {e : Engine} {stage stage' : Stage}
    {events : List Event} {done : Option Completion} {r : Result}
    (h : Shows program e stage events done stage') (hw : ∀ w, stage = .active w → w.Sound)
    (hbefore : stage = .launching ∨ ∃ w, stage = .active w) (hover : stage' = .lowering r) :
    events.filterMap Event.sinkCall? = [] ∧ done = none := by
  cases h with
  | works | starts => cases hover
  | ends moved =>
    rcases Worker.sinkCalls_of_advance (hw _ rfl) moved with ⟨hcalls, -⟩ | ⟨_, -, -, hworking, -⟩
    · exact ⟨hcalls, rfl⟩
    · cases hworking
  | breaks | falters | prepares | closes | rests => exact ⟨rfl, rfl⟩

/-- What the sink has been told of a run that has shown these events and completed these operators.
-/
structure Heard (program : Program) (events : List Event) (done : List Completion) (stage : Stage) :
    Prop where
  printed : sinkBytes (events.filterMap Event.sinkCall?) = printedBytes program done
  reached : sinkBytes (events.filterMap Event.sinkCall?) = events.filterMap Event.printStep?
  cumulative : Cumulative (events.filterMap Event.sinkCall?)
  told : stage.Told (events.filterMap Event.sinkCall?)

namespace Heard

variable {program : Program} {shown events : List Event} {done done' : List Completion}
  {stage stage' : Stage}

theorem append (heard : Heard program shown done stage)
    (printed : sinkBytes (events.filterMap Event.sinkCall?) = printedBytes program done')
    (reached : sinkBytes (events.filterMap Event.sinkCall?) = events.filterMap Event.printStep?)
    (cumulative : Cumulative (shown.filterMap Event.sinkCall? ++ events.filterMap Event.sinkCall?))
    (told : stage'.Told (shown.filterMap Event.sinkCall? ++ events.filterMap Event.sinkCall?)) :
    Heard program (shown ++ events) (done ++ done') stage' where
  printed := by
    rw [List.filterMap_append, sinkBytes_append, heard.printed, printed, printedBytes_append]
  reached := by
    rw [List.filterMap_append, sinkBytes_append, heard.reached, reached, List.filterMap_append]
  cumulative := by
    rw [List.filterMap_append]
    exact cumulative
  told := by
    rw [List.filterMap_append]
    exact told

/-- Where the sink is not called nothing changes but the stage. -/
theorem append_silent (heard : Heard program shown done stage)
    (silent : events.filterMap Event.sinkCall? = [] ∧ events.filterMap Event.printStep? = [])
    (printed : printedBytes program done' = [])
    (told : stage'.Told (shown.filterMap Event.sinkCall?)) :
    Heard program (shown ++ events) (done ++ done') stage' := by
  obtain ⟨hcalls, hsteps⟩ := silent
  refine heard.append ?_ ?_ ?_ ?_
  · rw [hcalls, printed]
    rfl
  · rw [hcalls, hsteps]
    rfl
  · rw [hcalls, List.append_nil]
    exact heard.cumulative
  · rwa [hcalls, List.append_nil]

/-- A piece of work that does not end the run. -/
theorem works {running : Bool} {queue queue' : ByteQueue} {w w' : Worker} (hw : w.Sound)
    (moved : w.advance running queue = ⟨.working w', queue', events⟩)
    (heard : Heard w.program shown done (.active w)) :
    Heard w.program (shown ++ events) (done ++ (w.completion? running queue).toList)
      (.active w') := by
  have houtput := Worker.output_of_advance hw moved
  have hprinted : (w.advance running queue).events.filterMap Event.printed? =
      printedBytes w.program (w.completion? running queue).toList := Worker.printed_eq hw
  rw [moved, ← sinkBytes_eq] at hprinted
  obtain ⟨htold, -⟩ : Stage.Told _ (.active w) := heard.told
  rcases Worker.sinkCalls_of_advance hw moved with ⟨hcalls, hsteps, hphase⟩ |
    ⟨cell, hop, hcell, hworking, hsteps, hcalls⟩
  · rw [hcalls] at houtput hprinted
    have hkept : w'.machine.output.toList = w.machine.output.toList :=
      houtput.trans (List.append_nil _)
    exact heard.append_silent ⟨hcalls, hsteps⟩ hprinted.symm
      ⟨htold.trans hkept.symm, fun hprinting => absurd hprinting (hphase w' rfl)⟩
  · cases hworking
    rw [hcalls] at houtput hprinted
    refine heard.append ?_ ?_ ?_ ?_
    · rw [hcalls]
      exact hprinted
    · rw [hcalls, hsteps]
      rfl
    · rw [hcalls, ← htold]
      exact heard.cumulative.concat cell
    · rw [hcalls]
      refine ⟨?_, fun _ => ⟨w.machine.ip, cell, rfl, hop, hcell, ?_⟩⟩
      · rw [sinkBytes_append, htold]
        exact houtput.symm
      · rw [List.getLast?_concat, houtput]
        rfl

end Heard

theorem kept_heard (memory : Nat) (program : Program) :
    System.Kept memory program (Heard program) := by
  constructor
  intro e shown done events done' stage stage' _ hwork shows heard
  have told := heard.told
  cases shows with
  | @works w w' queue events moved =>
    obtain ⟨rfl, hw, -⟩ := hwork w rfl
    exact heard.works hw moved
  | @ends w r queue events moved =>
    obtain ⟨rfl, hw, hsize⟩ := hwork w rfl
    rcases Worker.sinkCalls_of_advance hw moved with ⟨hcalls, hsteps, -⟩ | ⟨_, -, -, hworking, -⟩
    · refine heard.append_silent ⟨hcalls, hsteps⟩ rfl ?_
      rintro o rfl
      rcases Worker.ended_cases hw hsize moved with hdone | ⟨cause, hfailed, -⟩
      · cases hdone
        exact told.1
      · cases hfailed
    · cases hworking
  | breaks => exact heard.append_silent ⟨rfl, rfl⟩ rfl nofun
  | starts worker =>
    obtain ⟨machine, hmachine, rfl⟩ := Worker.launch_eq_ok worker
    obtain ⟨tape, -, rfl⟩ := Machine.start_eq_ok hmachine
    exact heard.append_silent ⟨rfl, rfl⟩ rfl ⟨congrArg sinkBytes told, nofun⟩
  | falters empty =>
    exact heard.append_silent ⟨rfl, rfl⟩ rfl fun o ho => absurd ho (empty o)
  | prepares before after =>
    have hnone := (Stage.told_iff_of_unstarted before).mp told
    exact heard.append_silent ⟨rfl, rfl⟩ rfl ((Stage.told_iff_of_unstarted after).mpr hnone)
  | @closes r flags =>
    refine heard.append_silent ⟨rfl, rfl⟩ rfl ?_
    obtain _ | _ | _ := flags <;> exact told
  | rests => exact heard.append_silent ⟨rfl, rfl⟩ rfl told

namespace System

variable {memory index : Nat} {fresh : System} {acts : List Act} {c : Call}

/-- The calls of the output sink that call number `index` makes under a schedule. -/
def sinkCalls (index : Nat) (s : System) (acts : List Act) : List SinkCall :=
  (s.shown index acts).filterMap Event.sinkCall?

/-- How a run of the program that leaves no outcome was cut off by an act, and what the sink had
been told by then. -/
inductive CutOff (memory : Nat) (program : Program) (index : Nat) (s : System)
    (calls : List SinkCall) : Act → Result → Prop where
  /-- Before the program was started. -/
  | unstarted {a : Act} {r : Result} (stage : s.stage? index = some .launching)
      (silent : calls = []) : CutOff memory program index s calls a r
  /-- At an operator that cannot be carried out: the sink has been told what was printed before. -/
  | fails {w : Worker} {cause : Fault} (stage : s.stage? index = some (.active w))
      (fails : w.machine.Fails memory program cause)
      (printed : sinkBytes calls = w.machine.output.toList) :
      CutOff memory program index s calls (.advance index) (.failed cause)
  /-- Inside the input-wanted hook. -/
  | wanted {w : Worker} (stage : s.stage? index = some (.active w)) (phase : w.phase = .announcing)
      (printed : sinkBytes calls = w.machine.output.toList) :
      CutOff memory program index s calls (.crash index) .crashed
  /-- Inside the sink itself: its last call was for the `.` before the position, whose byte is among
  those that were printed. -/
  | sink {w : Worker} {ip : Nat} {cell : UInt8} (stage : s.stage? index = some (.active w))
      (phase : w.phase = .printing) (position : w.machine.ip = ip + 1)
      (op : program.op? ip = some .print) (current : w.machine.tape.current? = some cell)
      (printed : sinkBytes calls = w.machine.output.toList)
      (last : calls.getLast? = some ⟨cell, w.machine.output.toList⟩) :
      CutOff memory program index s calls (.crash index) .crashed

/-- The sink has followed the output of a call: `calls` are all calls of the sink that it has made.
-/
structure SinkFollows (memory index : Nat) (fresh : System) (acts : List Act) (c : Call)
    (calls : List SinkCall) : Prop where
  /-- One call for each `.` that was carried out, in their order and with the cell that it prints.
  -/
  printed : sinkBytes calls = printedBytes c.program (fresh.completions index acts)
  /-- One call for each cycle that has reached a `.`, with the cell that it has found there. -/
  reached : sinkBytes calls = (fresh.shown index acts).filterMap Event.printStep?
  /-- The call number `k` hands over the bytes of all calls up to it. -/
  cumulative : ∀ k call, calls[k]? = some call → call.total = (sinkBytes calls).take (k + 1)
  unstarted : c.stage.unstarted = true → calls = []
  /-- A run with an outcome leaves behind what the sink has been told. -/
  outcome : ∀ {o flags}, flags ≤ 2 → c.stage = .closing (.done o) flags →
    sinkBytes calls = o.output.toList
  /-- A run without an outcome was cut off, and after that the sink was told nothing more. -/
  cut : ∀ {r flags}, flags ≤ 2 → c.stage = .closing r flags → (∀ o, r ≠ .done o) →
    ∃ before a later, acts = before ++ a :: later ∧
      (fresh.after before).CutOff memory c.program index calls a r ∧
      fresh.completions index acts = fresh.completions index before

theorem heard_of_call (h : System.new memory = .ok fresh)
    (hc : (fresh.after acts).calls[index]? = some c) :
    Heard c.program (fresh.shown index acts) (fresh.completions index acts) c.stage :=
  ((kept_heard memory c.program).always h ⟨rfl, rfl, nofun, rfl⟩ acts).2 c hc rfl

/-- What the sink is told from some time on is what the call prints from then on. -/
theorem sinkBytes_since (h : System.new memory = .ok fresh)
    (hc : (fresh.after acts).calls[index]? = some c) (later : List Act) :
    sinkBytes ((fresh.after acts).sinkCalls index later) =
      printedBytes c.program ((fresh.after acts).completions index later) := by
  obtain ⟨stage, hc'⟩ := exists_call_after h hc later
  have before := (heard_of_call h hc).printed
  have after := (heard_of_call h hc').printed
  rw [shown_append, completions_append, List.filterMap_append, sinkBytes_append, before,
    printedBytes_append] at after
  exact List.append_cancel_left after

theorem Exit.exists_call {s : System} {a : Act} {r : Result} (exit : s.Exit index a r) :
    ∃ c, s.calls[index]? = some c ∧ (c.stage = .launching ∨ ∃ w, c.stage = .active w) := by
  cases exit with
  | @worker w _ _ _ stage | @hook w stage =>
    obtain ⟨c, hc, hw⟩ := exists_call_of_stage? stage
    exact ⟨c, hc, .inr ⟨w, hw⟩⟩
  | tape call stage | thread call _ stage => exact ⟨_, call, .inl stage⟩
  | room stage =>
    obtain ⟨c, hc, hstage⟩ := exists_call_of_stage? stage
    exact ⟨c, hc, .inl hstage⟩

/-- The act that ends a run does not call the sink, and nothing after it does. -/
theorem Exit.sinkCalls_eq (h : System.new memory = .ok fresh) {a : Act} {r : Result}
    (exit : (fresh.after acts).Exit index a r) (later : List Act) :
    fresh.sinkCalls index (acts ++ a :: later) = fresh.sinkCalls index acts ∧
      fresh.completions index (acts ++ a :: later) = fresh.completions index acts := by
  obtain ⟨c, hc, hbefore⟩ := exit.exists_call
  obtain ⟨stage, hc', shows⟩ := (exclusive_after h acts).exists_shows hc a
  have hover := exit.stage?_eq
  rw [stage?_of_call hc'] at hover
  obtain ⟨hfirst, hnone⟩ := shows.silent_of_ends (fun w hw => (worker_of_call h hc hw).2) hbefore
    (Option.some.inj hover)
  have hc'' : (fresh.after (acts ++ [a])).calls[index]? = some { c with stage } := by
    rw [after_append]
    exact hc'
  obtain ⟨hshown, hdone⟩ := silent_of_closing h hc''
    (show stage = .closing r 2 from Option.some.inj hover) later
  have hsplit : acts ++ a :: later = acts ++ [a] ++ later := by simp
  rw [hsplit]
  constructor
  · rw [sinkCalls, shown_append, hshown, shown_append, List.append_nil, List.filterMap_append,
      hfirst, List.append_nil]
    rfl
  · rw [completions_append, hdone, completions_append, completions_single, hnone]
    simp

theorem Exit.cutOff (h : System.new memory = .ok fresh) {a : Act} {r : Result}
    (exit : (fresh.after acts).Exit index a r) (hempty : ∀ o, r ≠ .done o)
    (hc : (fresh.after acts).calls[index]? = some c) :
    (fresh.after acts).CutOff memory c.program index (fresh.sinkCalls index acts) a r := by
  have told := (heard_of_call h hc).told
  have stage_eq : ∀ {stage}, (fresh.after acts).stage? index = some stage → c.stage = stage :=
    fun hstage => Option.some.inj ((stage?_of_call hc).symm.trans hstage)
  have unstarted : (fresh.after acts).stage? index = some .launching →
      (fresh.after acts).CutOff memory c.program index (fresh.sinkCalls index acts) a r := by
    intro hstage
    rw [stage_eq hstage] at told
    exact .unstarted hstage told
  cases exit with
  | worker stage finish =>
    obtain ⟨hprogram, hw, -, hsize⟩ := whereabouts_of_call h hc (stage_eq stage)
    rw [stage_eq stage] at told
    rcases Worker.ended_cases hw hsize finish with rfl | ⟨cause, rfl, fails⟩
    · exact absurd rfl (hempty _)
    · exact .fails stage (hprogram ▸ fails) told.1
  | @hook w stage inside =>
    obtain ⟨hprogram, -⟩ := whereabouts_of_call h hc (stage_eq stage)
    rw [stage_eq stage] at told
    obtain ⟨hprinted, hlast⟩ := told
    cases hphase : w.phase with
    | announcing => exact .wanted stage hphase hprinted
    | printing =>
      obtain ⟨ip, cell, hip, hop, hcell, hcalls⟩ := hlast hphase
      exact .sink stage hphase hip (hprogram ▸ hop) hcell hprinted hcalls
    | ready | fetching | awaiting =>
      rw [Worker.inHook, hphase] at inside
      cases inside
  | tape call stage => exact unstarted (by rw [stage?_of_call call, stage])
  | room stage => exact unstarted stage
  | thread call _ stage => exact unstarted (by rw [stage?_of_call call, stage])

/-- The output sink is an exact stream of the output. At any time, and in whichever way the run has
ended, the calls of the sink are one for each `.` that was carried out, in their order, with the
cell that it prints and with the bytes of all calls so far. What a run with an outcome leaves behind
are the bytes of all calls. A run without one was cut off before its program was started, by an
operator that cannot be carried out, inside the input-wanted hook or inside the sink; the bytes of
all calls are then what was printed before that, and in the last case the byte of the call that
broke off is the last of them. -/
theorem sink_follows_output (h : System.new memory = .ok fresh)
    (hc : (fresh.after acts).calls[index]? = some c) :
    SinkFollows memory index fresh acts c (fresh.sinkCalls index acts) := by
  have heard := heard_of_call h hc
  have told := heard.told
  refine ⟨heard.printed, heard.reached, heard.cumulative, ?_, ?_, ?_⟩
  · intro hunstarted
    exact (Stage.told_iff_of_unstarted hunstarted).mp told
  · intro o flags _ hstage
    rw [hstage] at told
    obtain _ | _ | _ := flags <;> exact told o rfl
  · intro r flags hflags hstage hempty
    have hover : (fresh.after acts).stage? index = some (.closing r flags) := by
      rw [stage?_of_call hc, hstage]
    obtain ⟨before, a, later, rfl, exit, -⟩ := exists_exit h hflags hover
    obtain ⟨hcalls, hdone⟩ := exit.sinkCalls_eq h later
    obtain ⟨c', hc', -⟩ := exit.exists_call
    obtain ⟨stage, hlater⟩ := exists_call_after h hc' (a :: later)
    cases hc.symm.trans hlater
    refine ⟨before, a, later, rfl, ?_, hdone⟩
    rw [hcalls]
    exact exit.cutOff (c := c') h hempty hc'

/-- The sink breaks off at its second byte. -/
theorem sink_follows_output_of_broken_sink :
    let program : Program := .ofChars ['+', '.', '+', '.', '.']
    let fresh : System := ⟨⟨1, .empty, false, false⟩, #[]⟩
    let acts : List Act := .call .run program :: List.replicate 9 (.advance 0) ++
      [.crash 0, .advance 0, .advance 0]
    let c : Call := ⟨.run, program, .returned .crashed⟩
    System.new 1 = .ok fresh ∧ (fresh.after acts).calls[0]? = some c ∧
      fresh.sinkCalls 0 acts = [⟨1, [1]⟩, ⟨2, [1, 2]⟩] ∧
      printedBytes program (fresh.completions 0 acts) = [1, 2] ∧
      ∃ before a later, acts = before ++ a :: later ∧
        (fresh.after before).CutOff 1 program 0 [⟨1, [1]⟩, ⟨2, [1, 2]⟩] a .crashed := by
  intro program fresh acts c
  have new : System.new 1 = .ok fresh := rfl
  have call : (fresh.after acts).calls[0]? = some c := by decide
  have calls : fresh.sinkCalls 0 acts = [⟨1, [1]⟩, ⟨2, [1, 2]⟩] := by decide
  have follows := sink_follows_output new call
  rw [calls] at follows
  obtain ⟨before, a, later, hacts, cutOff, -⟩ := follows.cut (Nat.zero_le 2) rfl nofun
  exact ⟨new, call, calls, follows.printed.symm, before, a, later, hacts, cutOff⟩

end System

end Brainfuck
