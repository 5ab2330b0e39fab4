import Brainfuck.Engine.Checked
import Brainfuck.Proofs.Course
import Brainfuck.Proofs.Faults

/-!
# Runs that do not break off

No number that a run works with is too great for a machine word, and no index leaves its row. A
position is at most the length of the text, and less than that where there is an operator; the
pointer is on the tape, which keeps its cells. A search for a bracket is at most as deep as the
positions that it has passed, so its depth is a machine word since the length of the text is one.
Hence a worker that checks every number and every index does what a worker does that checks none
(`Worker.advanceChecked_eq`), and the latter is the one that runs.

`Worker.Safe` gathers what this means for one worker; it holds of every worker under every schedule
(`System.runs_never_break_off`).
-/

namespace Brainfuck

/-! ## Where the searches end -/

namespace Program

variable {p : Program} {depth pos ip found : Nat}

theorem op?_of_scanRight (h : p.scanRight depth pos = some found) :
    p.op? found = some .closeLoop := by
  generalize hleft : p.size - pos = left
  induction left generalizing depth pos with
  | zero =>
    rw [scanRight_of_size_le (Nat.le_of_sub_eq_zero hleft)] at h
    cases h
  | succ left ih =>
    by_cases hopen : p.op? pos = some .openLoop
    · rw [scanRight_open hopen] at h
      exact ih h (by omega)
    · by_cases hclose : p.op? pos = some .closeLoop
      · cases depth with
        | zero =>
          rw [scanRight_close_zero hclose] at h
          cases h
          exact hclose
        | succ depth =>
          rw [scanRight_close_succ hclose] at h
          exact ih h (by omega)
      · rw [scanRight_other (by omega) hopen hclose] at h
        exact ih h (by omega)

theorem lt_of_openBefore (h : p.openBefore depth pos = some found) : found < pos := by
  induction pos generalizing depth with
  | zero => cases h
  | succ pos ih =>
    by_cases hclose : p.op? pos = some .closeLoop
    · rw [openBefore_close hclose] at h
      exact Nat.lt_succ_of_lt (ih h)
    · by_cases hopen : p.op? pos = some .openLoop
      · cases depth with
        | zero =>
          rw [openBefore_open_zero hopen] at h
          cases h
          exact Nat.lt_succ_self _
        | succ depth =>
          rw [openBefore_open_succ hopen] at h
          exact Nat.lt_succ_of_lt (ih h)
      · rw [openBefore_other hopen hclose] at h
        exact Nat.lt_succ_of_lt (ih h)

theorem lt_size_of_loopExit (h : p.loopExit ip = .ok found) : found < p.size := by
  unfold loopExit at h
  split at h
  · next hfound =>
    cases h
    exact lt_size_of_op?_eq_some (op?_of_scanRight hfound)
  · cases h

theorem lt_of_loopEntry (h : p.loopEntry ip = .ok found) : found < ip := by
  unfold loopEntry at h
  split at h
  · cases h
  · split at h
    · next hfound =>
      cases h
      exact lt_of_openBefore hfound
    · cases h

/-! ## Searches that count in machine words -/

theorem getElem?_ops (h : pos < p.size) : p.ops[pos]? = some (p.op? pos) := by
  have hget : p.ops[pos]? = some p.ops[pos] := Array.getElem?_eq_getElem h
  rw [op?, hget]

theorem seekExit_succ (p : Program) (ip depth : Nat) (h : pos + 1 < UInt64.size) :
    p.seekExit ip (depth + 1) pos =
      match p.ops[pos + 1]? with
      | none => .error (.fault (.unmatched ip .opening))
      | some (some .openLoop) => do p.seekExit ip (← Word.succ (depth + 1)) (pos + 1)
      | some (some .closeLoop) => p.seekExit ip depth (pos + 1)
      | some _ => p.seekExit ip (depth + 1) (pos + 1) := by
  rw [seekExit, if_neg (Nat.succ_ne_zero depth)]
  split
  · next hnext =>
    rw [Word.succ_eq_ok h] at hnext
    cases hnext
  · next hnext =>
    obtain rfl := Word.eq_of_succ hnext
    split <;> simp_all
    rfl

/-- The search to the right is never deeper than the position that it has come to. -/
theorem seekExit_eq (hsize : p.size < UInt64.size) (ip : Nat) (hpos : pos < p.size)
    (hdepth : depth ≤ pos) :
    p.seekExit ip (depth + 1) pos =
      match p.scanRight depth (pos + 1) with
      | some close => .ok close
      | none => .error (.fault (.unmatched ip .opening)) := by
  generalize hleft : p.size - (pos + 1) = left
  induction left generalizing depth pos with
  | zero =>
    have hend : p.size ≤ pos + 1 := Nat.le_of_sub_eq_zero hleft
    have hnone : p.ops[pos + 1]? = none := Array.getElem?_eq_none hend
    rw [seekExit_succ p ip depth (by omega), hnone, scanRight_of_size_le hend]
  | succ left ih =>
    have hlt : pos + 1 < p.size := by omega
    rw [seekExit_succ p ip depth (by omega), getElem?_ops hlt]
    by_cases hopen : p.op? (pos + 1) = some .openLoop
    · rw [scanRight_open hopen, hopen, Word.succ_eq_ok (by omega)]
      exact ih hlt (by omega) (by omega)
    · by_cases hclose : p.op? (pos + 1) = some .closeLoop
      · rw [hclose]
        cases depth with
        | zero => simp [scanRight_close_zero hclose, seekExit]
        | succ depth =>
          rw [scanRight_close_succ hclose]
          exact ih hlt (by omega) (by omega)
      · rw [scanRight_other hlt hopen hclose, ← ih hlt (Nat.le_succ_of_le hdepth) (by omega)]
        split <;> simp_all

/-- The search to the left is never deeper than the positions that it has passed. -/
theorem seekEntry_eq (hsize : p.size < UInt64.size) (ip : Nat) (h : depth + pos < p.size) :
    p.seekEntry ip (depth + 1) pos =
      match p.openBefore depth pos with
      | some start => .ok start
      | none => .error (.fault (.unmatched ip .closing)) := by
  induction pos generalizing depth with
  | zero => simp [seekEntry, openBefore]
  | succ pos ih =>
    rw [seekEntry.eq_3 _ _ _ _ (Nat.succ_ne_zero depth), getElem?_ops (by omega)]
    by_cases hclose : p.op? pos = some .closeLoop
    · rw [openBefore_close hclose, hclose, Word.succ_eq_ok (by omega)]
      exact ih (by omega)
    · by_cases hopen : p.op? pos = some .openLoop
      · rw [hopen]
        cases depth with
        | zero => simp [openBefore_open_zero hopen, Word.pred, bind, Except.bind, seekEntry]
        | succ depth =>
          rw [openBefore_open_succ hopen]
          exact ih (by omega)
      · rw [openBefore_other hopen hclose, ← ih (Nat.lt_of_succ_lt h)]
        split <;> simp_all

theorem exitChecked_eq (hsize : p.size < UInt64.size) (hip : ip < p.size) :
    p.exitChecked ip = p.loopExit ip :=
  seekExit_eq hsize ip hip (Nat.zero_le ip)

theorem entryChecked_eq (hsize : p.size < UInt64.size) (hip : ip < p.size) :
    p.entryChecked ip = p.loopEntry ip := by
  rw [loopEntry, if_neg (by omega)]
  exact seekEntry_eq hsize ip (by omega)

end Program

/-! ## Tapes and machines -/

namespace Tape

variable {t : Tape}

theorem currentChecked_eq {cell : UInt8} (h : t.current? = some cell) :
    t.currentChecked = .ok cell := by
  rw [currentChecked, h]

theorem setChecked_eq (h : t.InBounds) (value : UInt8) : t.setChecked value = .ok (t.set value) :=
  if_pos h

theorem modifyChecked_eq (h : t.InBounds) (f : UInt8 → UInt8) :
    t.modifyChecked f = .ok (t.modify f) := by
  have hlt : t.pointer < t.cells.size := h
  have hset : t.modify f = t.set (f t.cells[t.pointer]) := by
    rw [modify, modify_eq_set t.cells f hlt, set, Array.setIfInBounds, dif_pos hlt]
  rw [modifyChecked, currentChecked_eq (current?_eq_some t hlt), hset]
  exact setChecked_eq h _

theorem moveRightChecked_eq (h : t.InBounds) (hsize : t.size < UInt64.size) (ip : Nat) :
    t.moveRightChecked ip = (t.moveRight ip).mapError .fault := by
  rw [moveRightChecked, Word.succ_eq_ok (Nat.lt_of_le_of_lt h hsize), moveRight]
  simp only [bind, Except.bind]
  split <;> rfl

theorem moveLeftChecked_eq (t : Tape) (ip : Nat) :
    t.moveLeftChecked ip = (t.moveLeft ip).mapError .fault := by
  obtain ⟨cells, pointer⟩ := t
  cases pointer <;> rfl

end Tape

namespace Machine

variable {p : Program} {m m' : Machine} {op : Op} {cell : UInt8}

theorem goOn_eq_ok (tape : Tape) (output : Array UInt8) {pos : Nat} (hpos : pos < p.size)
    (hsize : p.size < UInt64.size) : goOn tape output pos = .ok ⟨tape, output, pos + 1⟩ := by
  rw [goOn, Word.succ_eq_ok (Nat.lt_of_le_of_lt hpos hsize)]
  rfl

theorem performChecked_eq (hm : m.tape.InBounds) (hcells : m.tape.size < UInt64.size)
    (hip : m.ip < p.size) (hsize : p.size < UInt64.size) (cell : UInt8) (op : Op) :
    m.performChecked p cell op = m.perform p cell op := by
  obtain ⟨tape, output, ip⟩ := m
  have goOn_ok : ∀ {tape : Tape} {output : Array UInt8} {pos : Nat}, pos < p.size →
      goOn tape output pos = .ok ⟨tape, output, pos + 1⟩ :=
    fun hpos => goOn_eq_ok _ _ hpos hsize
  cases op with
  | right =>
    rw [performChecked, perform, Tape.moveRightChecked_eq hm hcells]
    cases tape.moveRight ip with
    | ok tape => exact goOn_ok hip
    | error cause => rfl
  | left =>
    rw [performChecked, perform, Tape.moveLeftChecked_eq]
    cases tape.moveLeft ip with
    | ok tape => exact goOn_ok hip
    | error cause => rfl
  | increment | decrement =>
    rw [performChecked, Tape.modifyChecked_eq hm]
    exact goOn_ok hip
  | print => exact goOn_ok hip
  | read => rfl
  | openLoop =>
    rw [performChecked, perform, Program.exitChecked_eq hsize hip, goOn_ok hip]
    cases hexit : p.loopExit ip with
    | ok close =>
      split
      · exact goOn_ok (Program.lt_size_of_loopExit hexit)
      · rfl
    | error failure => rfl
  | closeLoop =>
    rw [performChecked, perform, Program.entryChecked_eq hsize hip, goOn_ok hip]
    cases hentry : p.loopEntry ip with
    | ok start =>
      split
      · rfl
      · exact goOn_ok (Nat.lt_trans (Program.lt_of_loopEntry hentry) hip)
    | error failure => rfl

/-- An operator leads to a position of the program or to its end. -/
theorem perform_ip_le (hip : m.ip < p.size) (hm : m.perform p cell op = .ok m') :
    m'.ip ≤ p.size := by
  obtain ⟨tape, output, ip⟩ := m
  cases op with
  | right | left =>
    simp only [perform] at hm
    split at hm <;> cases hm
    exact hip
  | increment | decrement | print => cases hm; exact hip
  | read => cases hm; exact Nat.le_of_lt hip
  | openLoop =>
    simp only [perform] at hm
    split at hm
    · split at hm <;> cases hm
      exact Program.lt_size_of_loopExit ‹_›
    · cases hm; exact hip
  | closeLoop =>
    simp only [perform] at hm
    split at hm
    · cases hm; exact hip
    · split at hm <;> cases hm
      exact Nat.le_of_lt (Nat.lt_of_le_of_lt (Program.lt_of_loopEntry ‹_›) hip)

end Machine

namespace Sequential

variable {p : Program} {s t : Sequential}

theorem step_ip_le (h : s.step p = .next t) (hs : s.machine.tape.InBounds) :
    t.machine.ip ≤ p.size := by
  cases does_of_step_eq h hs with
  | comment hip => exact hip
  | reads hop => exact Program.lt_size_of_op?_eq_some hop
  | performs hop _ _ hmachine =>
    exact Machine.perform_ip_le (Program.lt_size_of_op?_eq_some hop) hmachine

theorem Path.ip_le {n : Nat} {done : List Completion} (h : Path p n s done t)
    (hs : s.machine.tape.InBounds) (hip : s.machine.ip ≤ p.size) : t.machine.ip ≤ p.size := by
  induction h with
  | nil => exact hip
  | cons first _ ih => exact ih (step_inBounds first hs) (step_ip_le first hs)

end Sequential

/-! ## Workers -/

namespace Worker

variable {running : Bool} {queue : ByteQueue} {w : Worker}

theorem cycleChecked_eq (hw : w.machine.tape.InBounds) (hcells : w.machine.tape.size < UInt64.size)
    (hsize : w.program.size < UInt64.size) :
    w.cycleChecked running queue = w.cycle running queue := by
  obtain ⟨program, machine, stalled, phase⟩ := w
  by_cases hgo : machine.ip < program.size ∧ running = true
  · obtain ⟨hip, rfl⟩ := hgo
    cases hop : program.op? machine.ip with
    | none =>
      have hskip : machine.skipChecked = .ok machine.skip :=
        Machine.goOn_eq_ok _ _ hip hsize
      simp only [cycleChecked, cycle, hop, hskip, comeTo]
    | some op =>
      obtain ⟨cell, hcell⟩ := hw.exists_current?
      have hcurrent := Tape.currentChecked_eq hcell
      have hperform := Machine.performChecked_eq hw hcells hip hsize cell op
      have hprint : machine.printChecked cell = .ok (machine.print cell) :=
        Machine.goOn_eq_ok _ _ hip hsize
      cases hresult : machine.perform program cell op <;> rw [hresult] at hperform <;> cases op <;>
        simp only [cycleChecked, cycle, hop, hcell, hcurrent, hperform, hresult, hprint, comeTo] <;>
        rfl
  · simp [cycleChecked, cycle, hgo]

/-- A worker that checks every number and every index does what a worker does that checks none. -/
theorem advanceChecked_eq (hw : w.Sound) (hcells : w.machine.tape.size < UInt64.size)
    (hsize : w.program.size < UInt64.size) :
    w.advanceChecked running queue = w.advance running queue := by
  obtain ⟨program, machine, stalled, phase⟩ := w
  obtain ⟨bytes⟩ := queue
  have haccept : program.op? machine.ip = some .read → ∀ value,
      machine.acceptChecked value = .ok (machine.accept value) := by
    intro hop value
    rw [Machine.acceptChecked, Tape.setChecked_eq hw.inBounds]
    exact Machine.goOn_eq_ok _ _ (Program.lt_size_of_op?_eq_some hop) hsize
  cases phase with
  | ready => exact cycleChecked_eq hw.inBounds hcells hsize
  | fetching =>
    cases bytes with
    | nil => rfl
    | cons value rest =>
      simp only [advanceChecked, receiveChecked, ByteQueue.pop, haccept (hw.atRead (.inl rfl))]
      rfl
  | awaiting =>
    cases bytes with
    | nil => rfl
    | cons value rest =>
      simp only [advanceChecked, receiveChecked, ByteQueue.pop, haccept (hw.atRead (.inr (.inr rfl)))]
      rfl
  | announcing | printing => rfl

/-- A worker reaches an operator only where one stands. -/
theorem op?_of_step {ip pointer : Nat} {op : Op} {cell : UInt8}
    (h : .step ip op pointer cell ∈ (w.advance running queue).events) :
    ip = w.machine.ip ∧ w.program.op? ip = some op ∧ pointer = w.machine.tape.pointer ∧
      w.machine.tape.current? = some cell := by
  obtain ⟨program, machine, stalled, phase⟩ := w
  obtain ⟨bytes⟩ := queue
  cases phase with
  | ready =>
    by_cases hgo : machine.ip < program.size ∧ running = true
    · obtain ⟨hip, rfl⟩ := hgo
      cases hop : program.op? machine.ip with
      | none => simp [advance, cycle, hip, hop] at h
      | some op' =>
        cases hcell : machine.tape.current? with
        | none => simp [advance, cycle, hip, hop, hcell] at h
        | some cell' =>
          rw [events_of_op? stalled ⟨bytes⟩ hop hcell] at h
          obtain ⟨rfl, rfl, rfl, rfl⟩ : ip = machine.ip ∧ op = op' ∧
              pointer = machine.tape.pointer ∧ cell = cell' := by
            rcases List.mem_cons.mp h with hfirst | hlater
            · simpa using hfirst
            · split at hlater <;> simp at hlater
          exact ⟨rfl, hop, rfl, rfl⟩
    · simp [advance, cycle, hgo] at h
  | fetching => cases bytes <;> cases stalled <;> simp [advance, fetch, ByteQueue.pop] at h
  | awaiting => cases bytes <;> simp [advance, await, ByteQueue.pop] at h
  | announcing | printing => cases h

/-- What holds of a worker with `memory` cells before each of its pieces of work, when the engine is
in this state: its position is in the text or at its end, and in the text where an operator is
reached or completed; the pointer is on the tape, which has all its cells; no number is too great and
no index outside its row, so that checking them changes nothing; and the run does not break off. -/
structure Safe (memory : Nat) (running : Bool) (queue : ByteQueue) (w : Worker) : Prop where
  position : w.machine.ip ≤ w.program.size
  reached : ∀ {ip op pointer cell},
    .step ip op pointer cell ∈ (w.advance running queue).events →
      ip = w.machine.ip ∧ ip < w.program.size ∧ w.program.op? ip = some op
  completed : ∀ {c}, w.completion? running queue = some c →
    c.ip = w.machine.ip ∧ c.ip < w.program.size
  pointer : w.machine.tape.pointer < memory
  cells : w.machine.tape.size = memory
  checked : w.advanceChecked running queue = w.advance running queue
  unbroken : (w.advance running queue).progress ≠ .ended .crashed

/-- A sound worker on a tape with all its cells, in the text or at its end. -/
theorem Sound.safe {memory : Nat} (hw : w.Sound) (hip : w.machine.ip ≤ w.program.size)
    (hcells : w.machine.tape.size = memory) (hmemory : memory < UInt64.size)
    (hsize : w.program.size < UInt64.size) : w.Safe memory running queue where
  position := hip
  reached h := by
    obtain ⟨rfl, hop, -⟩ := op?_of_step h
    exact ⟨rfl, Program.lt_size_of_op?_eq_some hop, hop⟩
  completed h := by
    obtain ⟨hc, op, hop⟩ := op?_of_completion? hw h
    exact ⟨hc, Program.lt_size_of_op?_eq_some hop⟩
  pointer := hcells ▸ hw.inBounds
  cells := hcells
  checked := advanceChecked_eq hw (hcells ▸ hmemory) hsize
  unbroken h := by
    generalize hmoved : w.advance running queue = moved at h
    obtain ⟨progress, queue', events⟩ := moved
    obtain rfl : progress = .ended .crashed := h
    rcases ended_cases hw hcells hmoved with hdone | ⟨cause, hfailed, -⟩
    · cases hdone
    · cases hfailed

end Worker

/-! ## Runs -/

namespace System

variable {memory index : Nat} {fresh : System} {acts : List Act} {c : Call}

/-- Where the worker of a call is: in the text or at its end, on a tape with all its cells. -/
theorem whereabouts_of_call (h : System.new memory = .ok fresh)
    (hc : (fresh.after acts).calls[index]? = some c) {w : Worker} (hw : c.stage = .active w) :
    w.program = c.program ∧ w.Sound ∧ w.machine.ip ≤ w.program.size ∧
      w.machine.tape.size = memory := by
  have hstage := stage?_of_call hc
  rw [hw] at hstage
  obtain ⟨c', origin, stream, done, hc', hpath⟩ := Raised.exists_onPath h ⟨_, hstage, rfl⟩
  cases hc.symm.trans hc'
  obtain ⟨hprogram, hsound, n, path⟩ := hpath.follows hstage
  have hstart : Machine.start memory = .ok origin := by
    have hstart := hpath.start
    rwa [memory_after, (new_eq_ok h).2] at hstart
  have horigin := Machine.start_inBounds hstart
  have hfirst : origin.ip ≤ c.program.size := by
    obtain ⟨tape, -, rfl⟩ := Machine.start_eq_ok hstart
    exact Nat.zero_le _
  refine ⟨hprogram, hsound, ?_, (path.size_eq horigin).trans (Machine.start_size hstart)⟩
  rw [hprogram]
  exact path.ip_le horigin hfirst

/-- What a call to carry out `program` on an engine with `memory` cells can come to when these are the
acts. -/
inductive ComesTo (memory : Nat) (program : Program) (index : Nat) (acts : List Act) :
    Result → Prop where
  /-- The end of the program or a stop. -/
  | done (outcome : Outcome) : ComesTo memory program index acts (.done outcome)
  /-- A fault of an operator of the program. -/
  | fails {m : Machine} {cause : Fault} (fails : m.Fails memory program cause) :
      ComesTo memory program index acts (.failed cause)
  | busy : ComesTo memory program index acts (.failed .engineBusy)
  | noThread (reason : String) : ComesTo memory program index acts (.failed (.noThread reason))
  /-- A hook has broken off, or there was no room for the cells. -/
  | crashed (crash : .crash index ∈ acts) : ComesTo memory program index acts .crashed

theorem comesTo_of_result (h : System.new memory = .ok fresh)
    (hc : (fresh.after acts).calls[index]? = some c) {r : Result}
    (hr : (fresh.after acts).result? index = some r) : ComesTo memory c.program index acts r := by
  rw [result?_eq] at hr
  obtain ⟨stage, hstage, hresult⟩ := Option.bind_eq_some_iff.mp hr
  cases stage with
  | rejected =>
    cases hresult
    exact .busy
  | returned r' =>
    cases hresult
    have hclosed : (fresh.after acts).stage? index = some (.closing r 0) := hstage
    obtain ⟨before, a, later, rfl, exit, -⟩ := exists_exit h (Nat.zero_le 2) hclosed
    cases exit with
    | @worker w _ _ _ stage moved =>
      obtain ⟨c', hc', hw⟩ := exists_call_of_stage? stage
      obtain ⟨hprogram, hsound, -, hcells⟩ := whereabouts_of_call h hc' hw
      -- from here on the call keeps its program, so the worker's program is that of the call now
      obtain ⟨stage', hlater⟩ := exists_call_after h hc' (.advance index :: later)
      cases hc.symm.trans hlater
      rcases Worker.ended_cases hsound hcells moved with rfl | ⟨cause, rfl, fails⟩
      · exact .done _
      · rw [hprogram] at fails
        exact .fails fails
    | hook | room => exact .crashed (by simp)
    | tape _ _ fault =>
      rw [Worker.launch, memory_after, (new_eq_ok h).2] at fault
      simp [Machine.start, Tape.blank, (new_eq_ok h).1] at fault
    | thread => exact .noThread _
  | _ => cases hresult

/-- A run does not break off of itself. Let a call be made on an engine with `memory` cells to carry
out any text, and let its hooks not break off and its cells be had: no act of the schedule makes the
call crash, and apart from that the schedule is arbitrary. Then before each of its pieces of work its
position is in the text or at its end, and in the text at an operator; its pointer is on the tape,
which has exactly its cells; and no sum or difference of positions, pointers and depths leaves the
machine words and no index its row, since the piece of work is the same when all of them are checked.
So the call comes to no crash, and whoever waits for its thread is not told of one. The length of the
text and the number of cells are machine words, as any that the engine can be given. -/
theorem runs_never_break_off (h : System.new memory = .ok fresh) (hmemory : memory < UInt64.size)
    {source : String} (hsource : source.length < UInt64.size)
    (hc : (fresh.after acts).calls[index]? = some c) (hprogram : c.program = .ofString source)
    (hcrash : .crash index ∉ acts) :
    (∀ w, c.stage = .active w → w.program = .ofString source ∧
      w.Safe memory (fresh.after acts).engine.running (fresh.after acts).engine.queue) ∧
    ∀ r, (fresh.after acts).result? index = some r →
      r ≠ .crashed ∧ r.joined ≠ .failed .workerLost := by
  constructor
  · intro w hw
    obtain ⟨hw', hsound, hip, hcells⟩ := whereabouts_of_call h hc hw
    have hsize : w.program.size < UInt64.size := by
      rw [hw', hprogram, Program.ofString, Program.size_ofChars, String.length_toList]
      exact hsource
    exact ⟨hw'.trans hprogram, hsound.safe hip hcells hmemory hsize⟩
  · intro r hr
    cases comesTo_of_result h hc hr with
    | done | busy | noThread => exact ⟨nofun, nofun⟩
    | fails fails => cases fails <;> exact ⟨nofun, nofun⟩
    | crashed crash => exact absurd crash hcrash

/-- A `]` without its `[`, for which the search goes back to the start of the text. -/
theorem runs_never_break_off_of_stray :
    let source := "+]"
    let fresh : System := ⟨⟨1, .empty, false, false⟩, #[]⟩
    let acts : List Act := .call .spawn (.ofString source) :: List.replicate 8 (.advance 0)
    let w : Worker := ⟨.ofString source, ⟨⟨#[1], 0⟩, #[], 1⟩, false, .ready⟩
    System.new 1 = .ok fresh ∧
      (fresh.after (acts.take 6)).stage? 0 = some (.active w) ∧ w.Safe 1 true .empty ∧
      (fresh.after acts).result? 0 = some (.failed (.unmatched 1 .closing)) ∧
      (Result.failed (.unmatched 1 .closing)).joined ≠ .failed .workerLost := by
  intro source fresh acts w
  have hnew : System.new 1 = .ok fresh := rfl
  have hr : (fresh.after acts).result? 0 = some (.failed (.unmatched 1 .closing)) := by decide
  have hactive : (fresh.after (acts.take 6)).calls[0]? =
      some ⟨.spawn, .ofString source, .active w⟩ := by decide
  have hover : (fresh.after acts).calls[0]? =
      some ⟨.spawn, .ofString source, .returned (.failed (.unmatched 1 .closing))⟩ := by decide
  have hengine : (fresh.after (acts.take 6)).engine = ⟨1, .empty, true, true⟩ := by decide
  obtain ⟨safe, -⟩ := runs_never_break_off hnew (by decide) (show source.length < _ by decide)
    hactive rfl (by decide)
  obtain ⟨-, returns⟩ := runs_never_break_off hnew (by decide) (show source.length < _ by decide)
    hover rfl (by decide)
  rw [hengine] at safe
  exact ⟨hnew, stage?_of_call hactive, (safe w rfl).2, hr, (returns _ hr).2⟩

end System

end Brainfuck
