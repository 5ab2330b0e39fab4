import Brainfuck.Proofs.Safety
import Mathlib.Data.List.Induction

/-!
# What an act shows of a call

`Stage.Shows` lists what an act, whoever makes it, can do to a call, what others see of the call
meanwhile, and which operator the act completes. Nearly everything is seen of a call that has a
worker; a call without one shows at most that its run begins.

What every such act keeps (`System.Kept`) holds of every call at all times, with all that it has
shown and completed until then, if it holds of a call that was just made (`Kept.always`). The same
can be said from any later moment on (`Kept.since`).
-/

namespace Brainfuck

/-- The stages of a call whose program has not been started. -/
def Stage.unstarted : Stage → Bool
  | .requested | .rejected | .taken | .cleared | .launching => true
  | _ => false

/-- What an act does to the stage of a call of the program, what it shows of the call, and which
operator of the call it completes. -/
inductive Stage.Shows (program : Program) (e : Engine) :
    Stage → List Event → Option Completion → Stage → Prop where
  /-- The worker does a piece of work. -/
  | works {w w' : Worker} {queue : ByteQueue} {events : List Event}
      (moved : w.advance e.running e.queue = ⟨.working w', queue, events⟩) :
      Shows program e (.active w) events (w.completion? e.running e.queue) (.active w')
  /-- The worker comes to the end of the run. -/
  | ends {w : Worker} {r : Result} {queue : ByteQueue} {events : List Event}
      (moved : w.advance e.running e.queue = ⟨.ended r, queue, events⟩) :
      Shows program e (.active w) events none (.lowering r)
  /-- The hook that the worker is in breaks off. -/
  | breaks {w : Worker} (inside : w.inHook = true) :
      Shows program e (.active w) [] none (.lowering .crashed)
  | starts {w : Worker} (worker : Worker.launch program e.memory = .ok w) :
      Shows program e .launching [.started program.size e.memory] none (.active w)
  /-- The program is not even started. -/
  | falters {r : Result} (empty : ∀ o, r ≠ .done o) :
      Shows program e .launching [] none (.lowering r)
  | prepares {stage stage' : Stage} (before : stage.unstarted = true)
      (after : stage'.unstarted = true) : Shows program e stage [] none stage'
  /-- A flag is taken back. -/
  | closes {r : Result} {flags : Nat} :
      Shows program e (.closing r (flags + 1)) [] none (.closing r flags)
  | rests {stage : Stage} : Shows program e stage [] none stage

namespace Stage

variable {program : Program} {e e' : Engine} {stage stage' : Stage}

theorem Breaks.shows (h : stage.Breaks stage') : stage.Shows program e [] none stage' := by
  cases h with
  | refused | roomless => exact .falters nofun
  | hook inside => exact .breaks inside
  | rests => exact .rests

end Stage

/-- A call whose run is over shows nothing more. -/
theorem Stage.Shows.of_closing {program : Program} {e : Engine} {stage stage' : Stage}
    {events : List Event} {done : Option Completion} {r : Result} {flags : Nat}
    (h : Shows program e stage events done stage') (hover : stage = .closing r flags) :
    events = [] ∧ done = none ∧ ∃ flags, stage' = .closing r flags := by
  obtain ⟨-, hlaunching, hactive⟩ := closing_ne r flags
  cases h with
  | works | ends | breaks => exact absurd hover.symm (hactive _)
  | starts | falters => exact absurd hover.symm hlaunching
  | prepares before =>
    subst hover
    obtain _ | _ | _ := flags <;> cases before
  | closes =>
    obtain rfl := closing_inj hover
    exact ⟨rfl, rfl, _, rfl⟩
  | rests => exact ⟨rfl, rfl, flags, hover⟩

/-- What the next action of a call shows and completes. -/
theorem Call.advance_shows (e : Engine) (c : Call) :
    c.stage.Shows c.program e (c.advance e).events (c.stage.completion? e)
      (c.advance e).call.stage := by
  obtain ⟨manner, program, stage⟩ := c
  cases stage with
  | requested =>
    cases hbusy : e.busy with
    | false => simpa [advance, hbusy] using .prepares rfl rfl
    | true => simpa [advance, hbusy] using .prepares rfl rfl
  | rejected => exact .rests
  | taken | cleared => exact .prepares rfl rfl
  | launching =>
    cases hlaunch : Worker.launch program e.memory with
    | ok w => simpa [advance, hlaunch] using .starts hlaunch
    | error cause => simpa [advance, hlaunch] using .falters (by rintro o ⟨⟩)
  | active w =>
    cases hmoved : w.advance e.running e.queue with
    | mk progress queue events =>
      cases progress with
      | working w' => simpa [advance, hmoved, Stage.completion?] using .works hmoved
      | ended r =>
        have hnone : w.completion? e.running e.queue = none := by
          simp [Worker.completion?, hmoved]
        simpa [advance, hmoved, Stage.completion?, hnone] using .ends hmoved
  | lowering r => exact (.closes : Stage.Shows program e (.closing r 2) [] none (.closing r 1))
  | releasing r => exact (.closes : Stage.Shows program e (.closing r 1) [] none (.closing r 0))
  | returned r => exact .rests

namespace System

variable {memory index : Nat} {program : Program} {fresh s : System} {c : Call} {acts : List Act}
  {motive : List Event → List Completion → Stage → Prop}

theorem after_concat (s : System) (acts : List Act) (a : Act) :
    s.after (acts ++ [a]) = ((s.after acts).act a).1 :=
  after_append s acts [a]

theorem shown_single (index : Nat) (s : System) (a : Act) :
    s.shown index [a] = if a = .advance index then (s.act a).2 else [] :=
  List.append_nil _

theorem completions_single (index : Nat) (s : System) (a : Act) :
    s.completions index [a] = (s.completion? index a).toList :=
  List.append_nil _

/-- What an act does to one call, whoever makes it. -/
theorem Exclusive.exists_shows (hs : s.Exclusive) (hc : s.calls[index]? = some c) (a : Act) :
    ∃ stage, (s.act a).1.calls[index]? = some { c with stage } ∧
      c.stage.Shows c.program s.engine (s.shown index [a]) (s.completion? index a) stage := by
  obtain ⟨stage, hc', sees⟩ := (s.acts a).sees hs hc
  refine ⟨stage, hc', ?_⟩
  rw [shown_single]
  by_cases ha : a = .advance index
  · subst ha
    have hstage : (c.advance s.engine).call.stage = stage := by
      have hlt := (Array.getElem?_eq_some_iff.mp hc).1
      rw [act_advance hc] at hc'
      simpa [hlt] using congrArg (Option.map Call.stage) hc'
    have hdone : s.completion? index (.advance index) = c.stage.completion? s.engine := by
      simp [completion?, stage?_of_call hc]
    rw [if_pos rfl, act_advance_eq hc, hdone, ← hstage]
    exact c.advance_shows s.engine
  · have hnone : s.completion? index a = none := if_neg ha
    rw [if_neg ha, hnone]
    generalize (s.act a).1.engine = e' at sees
    cases sees with
    | moves own => exact absurd own ha
    | breaks _ broken => exact broken.shows
    | pushes | stops | others => exact .rests

/-- A call that comes to be was just made. -/
theorem Acts.stage_of_absent {s' : System} {a : Act} (h : s.Acts a s')
    (hc : s.calls[index]? = none) (hc' : s'.calls[index]? = some c) : c.stage = .requested := by
  have hset : ∀ i c', s.calls[i]? = some c' → ∀ c'',
      (s.calls.setIfInBounds i c'')[index]? ≠ some c := by
    intro i c' hi c'' hsome
    have hne : i ≠ index := by
      rintro rfl
      cases hc.symm.trans hi
    rw [Array.getElem?_setIfInBounds_ne hne, hc] at hsome
    cases hsome
  cases h with
  | advances call => exact absurd hc' (hset _ _ call _)
  | breaks _ call => exact absurd hc' (hset _ _ call _)
  | calls =>
    rw [Array.getElem?_push] at hc'
    split at hc'
    · cases hc'
      rfl
    · cases hc.symm.trans hc'
  | absent | pushes | stops => cases hc.symm.trans hc'

/-- Nothing is seen of a call that has not been made. -/
theorem act_of_absent (hc : s.calls[index]? = none) (a : Act) :
    s.shown index [a] = [] ∧ s.completion? index a = none := by
  rw [shown_single]
  by_cases ha : a = .advance index
  · subst ha
    refine ⟨by rw [if_pos rfl, act_advance_absent hc], ?_⟩
    simp [completion?, stage?, hc]
  · exact ⟨if_neg ha, if_neg ha⟩

/-! ## Induction along a schedule -/

/-- Every act keeps this of a call of the program on an engine with `memory` cells, if it holds of
what the call has shown and completed before and of its stage. -/
structure Kept (memory : Nat) (program : Program)
    (motive : List Event → List Completion → Stage → Prop) : Prop where
  step : ∀ {e : Engine} {shown done events done' stage stage'}, e.memory = memory →
    (∀ w, stage = .active w → w.program = program ∧ w.Sound ∧ w.machine.tape.size = memory) →
    Stage.Shows program e stage events done' stage' → motive shown done stage →
      motive (shown ++ events) (done ++ done'.toList) stage'

theorem memory_of_after (h : System.new memory = .ok fresh) (acts : List Act) :
    (fresh.after acts).engine.memory = memory := by
  rw [memory_after, (new_eq_ok h).2]

theorem work_of_call (h : System.new memory = .ok fresh)
    (hc : (fresh.after acts).calls[index]? = some c) (w : Worker) (hw : c.stage = .active w) :
    w.program = c.program ∧ w.Sound ∧ w.machine.tape.size = memory := by
  obtain ⟨hprogram, hsound, -, hsize⟩ := whereabouts_of_call h hc hw
  exact ⟨hprogram, hsound, hsize⟩

theorem Kept.act (hkept : Kept memory c.program motive) (h : System.new memory = .ok fresh)
    (hc : (fresh.after acts).calls[index]? = some c) {shown : List Event} {done : List Completion}
    (hold : motive shown done c.stage) (a : Act) :
    ∃ stage, (fresh.after (acts ++ [a])).calls[index]? = some { c with stage } ∧
      motive (shown ++ (fresh.after acts).shown index [a])
        (done ++ (fresh.after acts).completions index [a]) stage := by
  obtain ⟨stage, hc', shows⟩ := (exclusive_after h acts).exists_shows hc a
  rw [after_append, completions_single]
  exact ⟨stage, hc', hkept.step (memory_of_after h acts) (work_of_call h hc) shows hold⟩

/-- What holds of a call at some time, and is kept by every act, holds of it ever after, with what
it has shown and completed since. -/
theorem Kept.since (hkept : Kept memory c.program motive) (h : System.new memory = .ok fresh)
    (hc : (fresh.after acts).calls[index]? = some c) (start : motive [] [] c.stage)
    (later : List Act) : ∃ stage,
      (fresh.after (acts ++ later)).calls[index]? = some { c with stage } ∧
        motive ((fresh.after acts).shown index later)
          ((fresh.after acts).completions index later) stage := by
  induction later using List.reverseRecOn with
  | nil => exact ⟨c.stage, by rwa [List.append_nil], start⟩
  | append_singleton later a ih =>
    obtain ⟨stage, hc', hold⟩ := ih
    have hnext := Kept.act (c := { c with stage }) hkept h hc' hold a
    rw [shown_append, completions_append, ← after_append, ← List.append_assoc]
    exact hnext

/-- A run that is over stays over, and nothing more is seen of it. -/
theorem closing_since (h : System.new memory = .ok fresh)
    (hc : (fresh.after acts).calls[index]? = some c) {r : Result} {flags : Nat}
    (hover : c.stage = .closing r flags) (later : List Act) :
    (fresh.after acts).shown index later = [] ∧ (fresh.after acts).completions index later = [] ∧
      ∃ flags, (fresh.after (acts ++ later)).stage? index = some (.closing r flags) := by
  have hkept : Kept memory c.program fun shown done stage =>
      shown = [] ∧ done = [] ∧ ∃ flags, stage = .closing r flags := by
    constructor
    rintro e shown done events done' stage stage' - - shows ⟨rfl, rfl, flags, hover⟩
    obtain ⟨rfl, rfl, hover'⟩ := shows.of_closing hover
    exact ⟨rfl, rfl, hover'⟩
  obtain ⟨stage, hc', hshown, hdone, flags, hover'⟩ :=
    hkept.since h hc ⟨rfl, rfl, flags, hover⟩ later
  exact ⟨hshown, hdone, flags, by rw [stage?_of_call hc', ← hover']⟩

theorem silent_of_closing (h : System.new memory = .ok fresh)
    (hc : (fresh.after acts).calls[index]? = some c) {r : Result} {flags : Nat}
    (hover : c.stage = .closing r flags) (later : List Act) :
    (fresh.after acts).shown index later = [] ∧
      (fresh.after acts).completions index later = [] :=
  ⟨(closing_since h hc hover later).1, (closing_since h hc hover later).2.1⟩

/-- Of a call that has not been made nothing has been collected that is not collected of one that is
absent. -/
theorem collect_of_absent {α : Type} {note : System → Act → List α}
    (hnote : ∀ {s a}, s.calls[index]? = none → note s a = []) (h : System.new memory = .ok fresh)
    (hc : (fresh.after acts).calls[index]? = none) : fresh.collect note acts = [] := by
  induction acts using List.reverseRecOn with
  | nil => rfl
  | append_singleton acts a ih =>
    rw [after_append] at hc
    cases hbefore : (fresh.after acts).calls[index]? with
    | none =>
      rw [collect_append, ih hbefore, collect_cons, hnote hbefore]
      rfl
    | some c =>
      obtain ⟨stage, hc', -⟩ := (exclusive_after h acts).exists_shows hbefore a
      cases hc.symm.trans hc'

/-- A call that has not been made has shown and completed nothing. -/
theorem unseen_of_absent (h : System.new memory = .ok fresh)
    (hc : (fresh.after acts).calls[index]? = none) :
    fresh.shown index acts = [] ∧ fresh.completions index acts = [] := by
  refine ⟨collect_of_absent (fun hnone => ?_) h hc, collect_of_absent (fun hnone => ?_) h hc⟩
  · rw [← shown_single]
    exact (act_of_absent hnone _).1
  · rw [(act_of_absent hnone _).2]
    rfl

/-- What holds of a schedule and of a call that its last act has made, and is kept by every act,
holds of every schedule and every call. -/
theorem call_induction {motive : List Act → Stage → Prop} (h : System.new memory = .ok fresh)
    (start : ∀ {acts a}, (fresh.after acts).calls[index]? = none →
      motive (acts ++ [a]) .requested)
    (step : ∀ {acts a c stage}, (fresh.after acts).calls[index]? = some c → c.program = program →
      c.stage.Shows program (fresh.after acts).engine ((fresh.after acts).shown index [a])
        ((fresh.after acts).completion? index a) stage →
      motive acts c.stage → motive (acts ++ [a]) stage)
    (acts : List Act) (hc : (fresh.after acts).calls[index]? = some c)
    (hprogram : c.program = program) : motive acts c.stage := by
  induction acts using List.reverseRecOn generalizing c with
  | nil =>
    obtain ⟨-, rfl⟩ := new_eq_ok h
    simp at hc
  | append_singleton acts a ih =>
    rw [after_append] at hc
    cases hbefore : (fresh.after acts).calls[index]? with
    | none =>
      rw [((fresh.after acts).acts a).stage_of_absent hbefore hc]
      exact start hbefore
    | some c' =>
      obtain ⟨stage, hc', shows⟩ := (exclusive_after h acts).exists_shows hbefore a
      cases hc'.symm.trans hc
      obtain rfl : c'.program = program := hprogram
      exact step hbefore rfl shows (ih hbefore rfl)

/-- What holds of a call that was just made, and is kept by every act, holds of every call, with all
that it has shown and completed. -/
theorem Kept.always (hkept : Kept memory program motive) (h : System.new memory = .ok fresh)
    (start : motive [] [] .requested) (acts : List Act) :
    ((fresh.after acts).calls[index]? = none →
      fresh.shown index acts = [] ∧ fresh.completions index acts = []) ∧
    ∀ c, (fresh.after acts).calls[index]? = some c → c.program = program →
      motive (fresh.shown index acts) (fresh.completions index acts) c.stage := by
  refine ⟨unseen_of_absent h, fun c hc hprogram => ?_⟩
  refine call_induction (motive := fun acts => motive (fresh.shown index acts)
    (fresh.completions index acts)) h (fun {acts a} hbefore => ?_)
    (fun {acts a c stage} hbefore hprogram shows hold => ?_) acts hc hprogram
  · obtain ⟨hshown, hdone⟩ := unseen_of_absent h hbefore
    obtain ⟨hshown', hdone'⟩ := act_of_absent hbefore a
    rw [shown_append, completions_append, completions_single, hshown, hdone, hshown', hdone']
    exact start
  · subst hprogram
    rw [shown_append, completions_append, completions_single]
    exact hkept.step (memory_of_after h acts) (work_of_call h hbefore) shows hold

end System

end Brainfuck
