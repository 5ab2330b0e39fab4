import Brainfuck.Proofs.Progress
import Brainfuck.Proofs.Simulation

/-!
# A run does what the rules of its block say

A run that goes on again and again (`System.Delivers`), whose input arrives at some time or other,
and that nobody disturbs has one of four fates: it returns at the end of the program, it fails at a
move, it waits forever at a `,`, or it completes operators without end. Which one it is, and with
what tape, output and rest of the input, is what `Block.Run` says of the block that the program
spells (`System.block_decides_run`).

Once all the input is there, nothing happens but acts of the run itself (`Delivers.after_eq`), and
`Brainfuck.Proofs.Progress` says where these get; `Brainfuck.Proofs.Simulation` says where the
machine of the block gets. The four fates exclude each other, which gives the converse.
-/

namespace Brainfuck

/-- The block starts with the machine and the bytes. -/
def Block.State.ofMachine (m : Machine) (input : List UInt8) : Block.State :=
  ⟨m.tape, input, m.output⟩

namespace System

variable {memory index : Nat} {program : Program} {input : List UInt8} {sched : Nat → Act}
  {s : System}

/-- The acts of an endless schedule before a time. -/
def upTo (sched : Nat → Act) (time : Nat) : List Act :=
  (List.range time).map sched

theorem upTo_succ (sched : Nat → Act) (time : Nat) :
    upTo sched (time + 1) = upTo sched time ++ [sched time] := by
  rw [upTo, List.range_succ, List.map_append]
  rfl

theorem after_upTo_succ (s : System) (sched : Nat → Act) (time : Nat) :
    s.after (upTo sched (time + 1)) = ((s.after (upTo sched time)).act (sched time)).1 := by
  rw [upTo_succ, after_append, after_cons, after_nil]

theorem upTo_add (sched : Nat → Act) (m n : Nat) :
    upTo sched (m + n) = upTo sched m ++ (List.range n).map fun i => sched (m + i) := by
  rw [upTo, List.range_add, List.map_append, List.map_map]
  rfl

/-- An endless schedule on which call number `index` goes on again and again, and beside that these
bytes are pushed. -/
structure Delivers (index : Nat) (input : List UInt8) (sched : Nat → Act) : Prop where
  own : ∀ time, sched time = .advance index ∨ ∃ bytes, sched time = .push bytes
  fair : ∀ time, ∃ later, time ≤ later ∧ sched later = .advance index
  delivered : ∃ time, ∀ later, time ≤ later → pushed (upTo sched later) = input

/-- What holds from some time on. -/
def Eventually (sched : Nat → Act) (s : System) (holds : System → Prop) : Prop :=
  ∃ time, ∀ later, time ≤ later → holds (s.after (upTo sched later))

/-- Call number `index` is at the `,` at a position, and the queue is empty. -/
def WaitsAt (index pos : Nat) (s : System) : Prop :=
  ∃ w, s.stage? index = some (.active w) ∧ w.machine.ip = pos ∧ w.program.op? pos = some .read ∧
    s.engine.queue.bytes = []

/-! ## When all the input is there -/

/-- How often a call goes on in so many acts after a time. -/
def turns (index : Nat) (sched : Nat → Act) (time : Nat) : (acts : Nat) → Nat
  | 0 => 0
  | acts + 1 =>
    turns index sched time acts + if sched (time + acts) = .advance index then 1 else 0

theorem turns_le_succ (index : Nat) (sched : Nat → Act) (time acts : Nat) :
    turns index sched time acts ≤ turns index sched time (acts + 1) :=
  Nat.le_add_right ..

theorem turns_mono (index : Nat) (sched : Nat → Act) (time : Nat) {m n : Nat} (h : m ≤ n) :
    turns index sched time m ≤ turns index sched time n := by
  induction h with
  | refl => exact Nat.le_refl _
  | step _ ih => exact Nat.le_trans ih (turns_le_succ ..)

/-- A call that goes on again and again goes on as often as one wants after any time. -/
theorem exists_turns (fair : ∀ time, ∃ later, time ≤ later ∧ sched later = .advance index)
    (time enough : Nat) : ∃ acts, enough ≤ turns index sched time acts := by
  induction enough with
  | zero => exact ⟨0, Nat.zero_le _⟩
  | succ enough ih =>
    obtain ⟨acts, hacts⟩ := ih
    obtain ⟨later, hlater, hturn⟩ := fair (time + acts)
    refine ⟨later - time + 1, ?_⟩
    have hmono := turns_mono index sched time (show acts ≤ later - time by omega)
    rw [turns, show time + (later - time) = later by omega, if_pos hturn]
    omega

theorem turns_eq_count (index : Nat) (sched : Nat → Act) (time acts : Nat) :
    turns index sched time acts =
      ((List.range acts).map fun i => sched (time + i)).count (.advance index) := by
  induction acts with
  | zero => rfl
  | succ acts ih =>
    rw [turns, ih, List.range_succ, List.map_append, List.count_append, List.map_singleton,
      List.count_singleton]
    simp only [beq_iff_eq]

theorem act_push_nil (s : System) : (s.act (.push [])).1 = s := by
  simp [act, Engine.push, ByteQueue.push]

namespace Delivers

theorem acts_own (h : Delivers index input sched) (time : Nat) :
    ∀ a ∈ upTo sched time, a = .advance index ∨ ∃ bytes, a = .push bytes := by
  intro a ha
  obtain ⟨t, -, rfl⟩ := List.mem_map.mp ha
  exact h.own t

theorem acts_undisturbed (h : Delivers index input sched) (time : Nat) :
    ∀ a ∈ upTo sched time, ¬ a.Disturbs index :=
  fun a ha => Act.not_disturbs (h.acts_own time a ha)

/-- Once all the input is there, only the acts of the call itself count. -/
theorem after_eq (h : Delivers index input sched) {time : Nat}
    (hinput : ∀ later, time ≤ later → pushed (upTo sched later) = input) (s : System)
    (acts : Nat) :
    s.after (upTo sched (time + acts)) =
        (s.after (upTo sched time)).after (goOn index (turns index sched time acts)) ∧
      s.completions index (upTo sched (time + acts)) = s.completions index (upTo sched time) ++
        (s.after (upTo sched time)).completions index
          (goOn index (turns index sched time acts)) := by
  induction acts with
  | zero => exact ⟨rfl, (List.append_nil _).symm⟩
  | succ acts ih =>
    obtain ⟨hafter, hdone⟩ := ih
    rw [← Nat.add_assoc, upTo_succ, after_append, completions_append, hafter, hdone, turns]
    rcases h.own (time + acts) with hturn | ⟨bytes, hpush⟩
    · rw [hturn, if_pos rfl, goOn_add, after_append, completions_append, List.append_assoc]
      exact ⟨rfl, rfl⟩
    · -- the push adds nothing to the input, so it is empty
      have hnil : bytes = [] := by
        have hnow := hinput (time + acts) (by omega)
        have hnext := hinput (time + acts + 1) (by omega)
        rw [upTo_succ, pushed_append, hnow, hpush] at hnext
        simpa [Act.pushed] using hnext
      subst hnil
      rw [hpush, if_neg (by simp), Nat.add_zero, after_cons, act_push_nil]
      refine ⟨rfl, ?_⟩
      simp [completions, completion?]

/-- What holds once the run has gone on often enough holds from some time on. -/
theorem eventually (h : Delivers index input sched) {time : Nat}
    (hinput : ∀ later, time ≤ later → pushed (upTo sched later) = input)
    {holds : System → Prop} (enough : Nat) (hholds : ∀ often, enough ≤ often →
      holds ((s.after (upTo sched time)).after (goOn index often))) : Eventually sched s holds := by
  obtain ⟨acts, hacts⟩ := exists_turns h.fair time enough
  refine ⟨time + acts, fun later hlater => ?_⟩
  have hmono := turns_mono index sched time (show acts ≤ later - time by omega)
  obtain ⟨hafter, -⟩ := h.after_eq hinput s (later - time)
  rw [show time + (later - time) = later by omega] at hafter
  rw [hafter]
  exact hholds _ (Nat.le_trans hacts hmono)

end Delivers

/-- Two things that hold from some time on hold together at some time. -/
theorem Eventually.and {holds holds' : System → Prop} (h : Eventually sched s holds)
    (h' : Eventually sched s holds') (time : Nat) :
    ∃ later, time ≤ later ∧ holds (s.after (upTo sched later)) ∧
      holds' (s.after (upTo sched later)) := by
  obtain ⟨t, ht⟩ := h
  obtain ⟨t', ht'⟩ := h'
  exact ⟨max time (max t t'), by omega, ht _ (by omega), ht' _ (by omega)⟩

/-! ## From the rules to the engine -/

/-- On this schedule call number `index` carries out a program that spells the block, from the
machine `origin` on and with this input. -/
structure Enacts (b : Block) (program : Program) (origin : Machine) (index : Nat)
    (input : List UInt8) (sched : Nat → Act) (s : System) : Prop where
  path : s.OnPath program origin index [] []
  queue : s.engine.queue.bytes = []
  undisturbed : s.Undisturbed index
  first : origin.ip = 0
  spans : b.Spans program 0 program.size
  delivers : Delivers index input sched

namespace Enacts

variable {b : Block} {origin : Machine} {t : Block.State} {e : Block.Ending} {r : Result}

theorem onPath (h : Enacts b program origin index input sched s) {time : Nat}
    (hinput : pushed (upTo sched time) = input) :
    (s.after (upTo sched time)).OnPath program origin index input
      (s.completions index (upTo sched time)) := by
  have hafter := h.path.after (upTo sched time)
  rwa [List.nil_append, List.nil_append, hinput] at hafter

theorem undisturbed_after (h : Enacts b program origin index input sched s) (time : Nat) :
    (s.after (upTo sched time)).Undisturbed index :=
  h.path.undisturbed_after h.undisturbed (h.delivers.acts_undisturbed time)

theorem stream_eq (h : Enacts b program origin index input sched s) {time : Nat}
    (hinput : pushed (upTo sched time) = input) :
    input = takenBytes (s.completions index (upTo sched time)) ++
      (s.after (upTo sched time)).engine.queue.bytes := by
  have hstream := h.path.stream_after (by rw [h.queue]; rfl) (h.delivers.acts_own time)
  rwa [List.nil_append, List.nil_append, hinput] at hstream

theorem inBounds (h : Enacts b program origin index input sched s) : origin.tape.InBounds :=
  Machine.start_inBounds h.path.start

/-- Where the machine gets that the block starts with. -/
theorem leads (h : Enacts b program origin index input sched s)
    (run : b.Run (.ofMachine origin input) e) :
    Block.Leads program program.size ⟨origin, input⟩ e := by
  have hleads := run.leads h.spans h.inBounds (b.mem_entries 0)
  obtain ⟨tape, output, ip⟩ := origin
  obtain rfl : ip = 0 := h.first
  exact hleads

/-- A run whose path ends with a result returns it, and leaves in the queue what it has not
taken. -/
theorem eventually_returns (h : Enacts b program origin index input sched s) {n : Nat}
    {all : List Completion} {u : Sequential}
    (path : Sequential.Path program n ⟨origin, input⟩ all u)
    (ends : Sequential.Ends program u r) : Eventually sched s fun s =>
      s.result? index = some r ∧ s.engine.queue.bytes = u.input := by
  obtain ⟨time, hinput⟩ := h.delivers.delivered
  have hnow := hinput time (Nat.le_refl _)
  have honPath := h.onPath hnow
  obtain ⟨enough, hreturns⟩ := honPath.returns (h.undisturbed_after time) path ends
  refine h.delivers.eventually hinput enough fun often hoften => ?_
  obtain ⟨hresult, hall⟩ := hreturns often hoften
  have hown : ∀ a ∈ goOn index often, a = .advance index ∨ ∃ bytes, a = .push bytes :=
    fun a ha => .inl (List.eq_of_mem_replicate ha)
  have hstream := honPath.stream_after (h.stream_eq hnow) hown
  rw [hall, pushed_goOn, List.append_nil] at hstream
  have htaken : input = takenBytes all ++ u.input := path.input_eq h.inBounds
  exact ⟨hresult, (List.append_cancel_left (hstream.symm.trans htaken))⟩

theorem eventually_finished (h : Enacts b program origin index input sched s)
    (run : b.Run (.ofMachine origin input) (.finished t)) : Eventually sched s fun s =>
      s.result? index = some (.done ⟨t.output, .completed, t.tape⟩) ∧
        s.engine.queue.bytes = t.input := by
  obtain ⟨n, all, path⟩ := h.leads run
  have ends := Sequential.Ends.of_size_le (s := t.atPos program.size) (Nat.le_refl program.size)
    (path.inBounds h.inBounds)
  have hreturns := h.eventually_returns path ends
  simpa [Machine.outcome, Block.State.atPos] using hreturns

theorem eventually_failed (h : Enacts b program origin index input sched s) {cause : Fault}
    (run : b.Run (.ofMachine origin input) (.failed cause)) : Eventually sched s fun s =>
      s.result? index = some (.failed cause) := by
  obtain ⟨n, all, u, path, failed⟩ := h.leads run
  obtain ⟨time, hreturns⟩ := h.eventually_returns path (.failed failed)
  exact ⟨time, fun later hlater => (hreturns later hlater).1⟩

theorem eventually_waits (h : Enacts b program origin index input sched s) {pos : Nat}
    (run : b.Run (.ofMachine origin input) (.starved pos t)) :
    Eventually sched s (WaitsAt index pos) := by
  obtain ⟨n, all, path, hstarved⟩ := h.leads run
  obtain ⟨time, hinput⟩ := h.delivers.delivered
  obtain ⟨enough, hwaits⟩ := (h.onPath (hinput time (Nat.le_refl _))).waits
    (h.undisturbed_after time) path hstarved
  refine h.delivers.eventually hinput enough fun often hoften => ?_
  obtain ⟨distance, hcarries⟩ := hwaits often hoften
  obtain ⟨c, w, hc, hstage, rfl, -, hsequential, -⟩ := hcarries.call
  have hmachine : w.machine = (t.atPos pos).machine := congrArg Sequential.machine hsequential
  cases Sequential.does_of_step_eq hstarved (path.inBounds h.inBounds) with
  | starved hop hnone =>
    refine ⟨w, by rw [stage?_of_call hc, hstage], by rw [hmachine]; rfl, hop, ?_⟩
    exact (congrArg Sequential.input hsequential).trans hnone

theorem unbounded (h : Enacts b program origin index input sched s)
    (endless : ∀ n, ∃ all u, Sequential.Path program n ⟨origin, input⟩ all u) (k : Nat) :
    ∃ time, k ≤ (s.completions index (upTo sched time)).length := by
  obtain ⟨time, hinput⟩ := h.delivers.delivered
  obtain ⟨often, hoften⟩ := (h.onPath (hinput time (Nat.le_refl _))).runs_on
    (h.undisturbed_after time) endless k
  obtain ⟨acts, hacts⟩ := exists_turns h.delivers.fair time often
  refine ⟨time + acts, ?_⟩
  rw [(h.delivers.after_eq hinput s acts).2]
  obtain ⟨more, hmore⟩ := Nat.exists_eq_add_of_le hacts
  rw [hmore, goOn_add, completions_append, ← List.append_assoc, List.length_append]
  omega

/-! ## From the engine to the rules -/

/-- The block has an ending, or its machine goes on without end. -/
theorem run_or_endless (h : Enacts b program origin index input sched s) :
    (∃ e, b.Run (.ofMachine origin input) e) ∨
      ∀ n, ∃ all u, Sequential.Path program n ⟨origin, input⟩ all u := by
  by_cases hrun : ∃ e, b.Run (.ofMachine origin input) e
  · exact .inl hrun
  · refine .inr fun n => ?_
    have hpath := Block.run_or_path n h.spans (s := .ofMachine origin input) h.inBounds
      (b.mem_entries 0)
    obtain ⟨tape, output, ip⟩ := origin
    obtain rfl : ip = 0 := h.first
    exact hpath.resolve_left hrun

/-- A run that has returned or waits has come to the end of its path. -/
theorem exists_stuck (h : Enacts b program origin index input sched s) {time : Nat}
    (hinput : pushed (upTo sched time) = input)
    (hstill : (∃ r, (s.after (upTo sched time)).result? index = some r) ∨
      ∃ pos, (s.after (upTo sched time)).WaitsAt index pos) :
    ∃ n all u, Sequential.Path program n ⟨origin, input⟩ all u ∧ Sequential.Stuck program u := by
  have honPath := h.onPath hinput
  rcases hstill with ⟨r, hr⟩ | ⟨pos, w, hstage, rfl, hop, hqueue⟩
  · obtain ⟨n, u, path, ends⟩ := honPath.ends_of_closing (h.undisturbed_after time)
      (honPath.stage_of_result hr)
    exact ⟨n, _, u, path, ends.stuck⟩
  · obtain ⟨rfl, hw, n, path⟩ := honPath.follows hstage
    have hstarved := Sequential.Does.step_eq
      (s := w.sequential (s.after (upTo sched time)).engine.queue) (.starved hop hqueue) hw.inBounds
    exact ⟨n, _, _, path, Sequential.stuck_of_starved hstarved⟩

end Enacts

/-- What becomes of a call whose block ends in this way. -/
def Fate (index : Nat) (s : System) : Block.Ending → Prop
  | .finished t => s.result? index = some (.done ⟨t.output, .completed, t.tape⟩) ∧
    s.engine.queue.bytes = t.input
  | .failed cause => s.result? index = some (.failed cause)
  | .starved pos _ => s.WaitsAt index pos

theorem WaitsAt.result?_eq {pos : Nat} (h : s.WaitsAt index pos) : s.result? index = none := by
  obtain ⟨w, hstage, -⟩ := h
  rw [System.result?_eq, hstage]
  rfl

namespace Enacts

variable {b : Block} {origin : Machine} {t : Block.State} {e : Block.Ending}

theorem eventually_fate (h : Enacts b program origin index input sched s)
    (run : b.Run (.ofMachine origin input) e) : Eventually sched s (Fate index · e) := by
  cases e with
  | finished t => exact h.eventually_finished run
  | failed cause => exact h.eventually_failed run
  | starved pos t => exact h.eventually_waits run

/-- A run that in the end has a result or waits does so because its block ends, and at some time
both can be seen. -/
theorem exists_run (h : Enacts b program origin index input sched s) {holds : System → Prop}
    (hholds : Eventually sched s holds) (hstill : ∀ s, holds s →
      (∃ r, s.result? index = some r) ∨ ∃ pos, s.WaitsAt index pos) :
    ∃ e s', b.Run (.ofMachine origin input) e ∧ holds s' ∧ Fate index s' e := by
  rcases h.run_or_endless with ⟨e, run⟩ | endless
  · obtain ⟨later, -, hlater, hfate⟩ := hholds.and (h.eventually_fate run) 0
    exact ⟨e, _, run, hlater, hfate⟩
  · -- the endless path would go on behind the end that the run has come to
    obtain ⟨time, hinput⟩ := h.delivers.delivered
    obtain ⟨later, hle, hlater, -⟩ := hholds.and hholds time
    obtain ⟨n, all, u, path, hstuck⟩ := h.exists_stuck (hinput later hle) (hstill _ hlater)
    obtain ⟨all', u', path'⟩ := endless (n + 1)
    have hle := path.le_of_stuck hstuck path'
    omega

theorem finished_iff (h : Enacts b program origin index input sched s) (output : Array UInt8)
    (tape : Tape) (rest : List UInt8) :
    Eventually sched s (fun s => s.result? index = some (.done ⟨output, .completed, tape⟩) ∧
      s.engine.queue.bytes = rest) ↔
      b.Run (.ofMachine origin input) (.finished ⟨tape, rest, output⟩) := by
  refine ⟨fun hreturns => ?_, h.eventually_finished⟩
  obtain ⟨e, s', run, ⟨hresult, hqueue⟩, hfate⟩ :=
    h.exists_run hreturns fun s hs => .inl ⟨_, hs.1⟩
  cases e with
  | finished t =>
    obtain ⟨hresult', hqueue'⟩ := hfate
    obtain ⟨tape', input', output'⟩ := t
    cases hresult.symm.trans hresult'
    cases hqueue.symm.trans hqueue'
    exact run
  | failed cause => cases hresult.symm.trans hfate
  | starved pos t => cases hresult.symm.trans hfate.result?_eq

theorem failed_iff (h : Enacts b program origin index input sched s) (cause : Fault) :
    Eventually sched s (fun s => s.result? index = some (.failed cause)) ↔
      b.Run (.ofMachine origin input) (.failed cause) := by
  refine ⟨fun hreturns => ?_, h.eventually_failed⟩
  obtain ⟨e, s', run, hresult, hfate⟩ := h.exists_run hreturns fun s hs => .inl ⟨_, hs⟩
  cases e with
  | finished t => cases hresult.symm.trans hfate.1
  | failed cause' =>
    cases hresult.symm.trans hfate
    exact run
  | starved pos t => cases hresult.symm.trans hfate.result?_eq

theorem waits_iff (h : Enacts b program origin index input sched s) (pos : Nat) :
    Eventually sched s (WaitsAt index pos) ↔
      ∃ t, b.Run (.ofMachine origin input) (.starved pos t) := by
  refine ⟨fun hwaits => ?_, fun ⟨t, run⟩ => h.eventually_waits run⟩
  obtain ⟨e, s', run, hwaits, hfate⟩ := h.exists_run hwaits fun s hs => .inr ⟨pos, hs⟩
  cases e with
  | finished t => cases hwaits.result?_eq.symm.trans hfate.1
  | failed cause => cases hwaits.result?_eq.symm.trans hfate
  | starved pos' t =>
    obtain ⟨w, hstage, rfl, -⟩ := hwaits
    obtain ⟨w', hstage', rfl, -⟩ := hfate
    cases hstage.symm.trans hstage'
    exact ⟨t, run⟩

/-- A block that ends bounds the number of operators that its run completes. -/
theorem unbounded_iff (h : Enacts b program origin index input sched s) :
    (∀ k, ∃ time, k ≤ (s.completions index (upTo sched time)).length) ↔
      ¬ ∃ e, b.Run (.ofMachine origin input) e := by
  refine ⟨fun hunbounded => ?_, fun hnone => h.unbounded (h.run_or_endless.resolve_left hnone)⟩
  rintro ⟨e, run⟩
  obtain ⟨n, all, u, path, hstuck⟩ := (h.leads run).stuck h.inBounds
  obtain ⟨time, hinput⟩ := h.delivers.delivered
  obtain ⟨time', hmore⟩ := hunbounded (all.length + 1)
  -- when all the input is there the run has not completed fewer
  have hlater : all.length + 1 ≤ (s.completions index (upTo sched (time' + time))).length := by
    rw [upTo_add, completions_append, List.length_append]
    omega
  obtain ⟨c, -, -, hfollows⟩ := (h.onPath (hinput (time' + time) (by omega))).call
  obtain ⟨n', u', path'⟩ := hfollows.path
  obtain ⟨later, hall, -⟩ := path'.split path (path.le_of_stuck hstuck path')
  rw [hall, List.length_append] at hlater
  omega

end Enacts

theorem Begun.enacts {source : List Char} {b : Block} {origin : Machine}
    (h : s.Begun memory (Program.ofChars source) index) (hstart : Machine.start memory = .ok origin)
    (hspans : b.Spans (Program.ofChars source) 0 (Program.ofChars source).size)
    (hsched : Delivers index input sched) :
    Enacts b (Program.ofChars source) origin index input sched s := by
  obtain ⟨origin', hstart', hpath⟩ := h.onPath
  cases hstart.symm.trans hstart'
  obtain ⟨tape, -, rfl⟩ := Machine.start_eq_ok hstart
  exact ⟨hpath, h.queue_eq, h.undisturbed, rfl, hspans, hsched⟩

/-- The run of a text whose brackets match, if it goes on again and again, gets its input at some
time or other and is not disturbed, does what the rules of the block say that the text spells. It
returns at the end of the program, with this output, this tape and these bytes left in the queue,
exactly if the block finishes with them; it returns a fault exactly if the block fails with it,
which is always at a move that would leave the tape; it waits forever at a `,` exactly if the block
asks for a byte there and none is left; and it completes operators without end exactly if the block
has no ending. -/
theorem block_decides_run {source : String} (hsource : Balanced source.toList)
    (h : s.Begun memory (Program.ofString source) index) (hsched : Delivers index input sched) :
    ∃ b tape, Block.ofProgram? (Program.ofString source) = some b ∧ Tape.blank memory = .ok tape ∧
      (∀ output tape' rest, Eventually sched s (fun s =>
          s.result? index = some (.done ⟨output, .completed, tape'⟩) ∧
            s.engine.queue.bytes = rest) ↔
        b.Run ⟨tape, input, #[]⟩ (.finished ⟨tape', rest, output⟩)) ∧
      (∀ cause, Eventually sched s (fun s => s.result? index = some (.failed cause)) ↔
        b.Run ⟨tape, input, #[]⟩ (.failed cause)) ∧
      (∀ cause, b.Run ⟨tape, input, #[]⟩ (.failed cause) → ∃ pos pointer op,
        cause = .offTape pos pointer op.toChar ∧ (Program.ofString source).op? pos = some op ∧
          (op = .right ∨ op = .left)) ∧
      (∀ pos, Eventually sched s (WaitsAt index pos) ↔
        ∃ t, b.Run ⟨tape, input, #[]⟩ (.starved pos t)) ∧
      ((∀ k, ∃ time, k ≤ (s.completions index (upTo sched time)).length) ↔
        ¬ ∃ e, b.Run ⟨tape, input, #[]⟩ e) := by
  obtain ⟨b, hblock, hspans⟩ := hsource.exists_block
  obtain ⟨origin, hstart, -⟩ := h.onPath
  obtain ⟨tape, htape, rfl⟩ := Machine.start_eq_ok hstart
  have henacts := h.enacts hstart hspans hsched
  exact ⟨b, tape, hblock, htape, henacts.finished_iff, henacts.failed_iff,
    fun cause run => run.failed_at_move hspans rfl, henacts.waits_iff, henacts.unbounded_iff⟩

/-- A loop that counts down from the first of two bytes, which arrive before the run starts. -/
theorem block_decides_run_of_countdown :
    let source := ",[.-]"
    let s : System := ⟨⟨1, .empty, false, true⟩, #[⟨.run, Program.ofString source, .cleared⟩]⟩
    let sched : Nat → Act := fun time => if time = 0 then .push [1, 7] else .advance 0
    Balanced source.toList ∧ s.Begun 1 (Program.ofString source) 0 ∧ Delivers 0 [1, 7] sched ∧
      Eventually sched s fun s =>
        s.result? 0 = some (.done ⟨#[1], .completed, ⟨#[0], 0⟩⟩) ∧ s.engine.queue.bytes = [7] := by
  intro source s sched
  have balanced : Balanced source.toList := by decide
  have begun : s.Begun 1 (Program.ofString source) 0 :=
    ⟨_, [.call .run (Program.ofString source), .advance 0], _, rfl, rfl, rfl, rfl, rfl⟩
  have delivers : Delivers 0 [1, 7] sched := by
    refine ⟨fun time => ?_, fun time => ⟨time + 1, by omega, rfl⟩, 1, fun later hlater => ?_⟩
    · by_cases htime : time = 0
      · exact .inr ⟨[1, 7], if_pos htime⟩
      · exact .inl (if_neg htime)
    · induction hlater with
      | refl => rfl
      | @step time htime ih =>
        have hadvance : sched time = .advance 0 := if_neg (Nat.ne_of_gt htime)
        rw [upTo_succ, pushed_append, ih, hadvance]
        rfl
  obtain ⟨b, tape, hblock, htape, finished, -⟩ := block_decides_run balanced begun delivers
  refine ⟨balanced, begun, delivers, (finished _ _ _).mpr ?_⟩
  obtain rfl :
      Block.single .read 0 (.loop 1 (.single .print 2 (.single .decrement 3 .done)) 4 .done) = b :=
    Option.some.inj (Eq.trans (by decide) hblock)
  obtain rfl : (⟨#[0], 0⟩ : Tape) = tape := Except.ok.inj (Eq.trans rfl htape)
  exact .single rfl (.loopAgain (by decide) (.single rfl (.single rfl .done))
    (.loopOver rfl .done))

end System

end Brainfuck
