import Brainfuck.Proofs.Course
import Brainfuck.Proofs.Halting

/-!
# A stop is neither lost nor invented

A stop that comes after a run has set the running flag and before it has taken it back ends the run
(`Obeys`): the flag is not set again, no operator is begun, the call returns after a few acts of its
own, and what it returns depends only on where the stop has found it. A fault that it then returns is
that of an operator which was carried out before the stop, by the last act of the run before it.

A run that returns as stopped was stopped: had nobody asked for it between the raising of the flag
and the end of the run, the history would still have the flag up when the worker last looked at it.
-/

namespace Brainfuck.System

/-! ## A worker that has not looked at the flag -/

/-- A worker that has not acted is at the head of its first cycle. -/
theorem Acts.ready {index : Nat} {s s' : System} {a : Act}
    (hs : ∀ w, s.stage? index = some (.active w) → w.phase = .ready)
    (ha : a = .advance index → ∀ w, s.stage? index ≠ some (.active w)) (h : s.Acts a s') (w : Worker)
    (hw : s'.stage? index = some (.active w)) : w.phase = .ready := by
  cases h with
  | @advances i c e stage call move =>
    rw [stage?_set call] at hw
    by_cases hi : index = i
    · subst hi
      rw [if_pos rfl] at hw
      cases hw
      have hstage := stage?_of_call call
      generalize c.stage = stage at hstage move
      cases move with
      | starts worker =>
        obtain ⟨machine, -, rfl⟩ := Worker.launch_eq_ok worker
        rfl
      | works => exact absurd hstage (ha rfl _)
    · rw [if_neg hi] at hw
      exact hs w hw
  | @breaks _ i c stage own call broken =>
    rw [stage?_set call] at hw
    by_cases hi : index = i
    · subst hi
      rw [if_pos rfl] at hw
      cases hw
      have hstage := stage?_of_call call
      generalize c.stage = stage at hstage broken
      cases broken with
      | rests => exact hs w hstage
    · rw [if_neg hi] at hw
      exact hs w hw
  | calls =>
    rw [stage?_push] at hw
    by_cases hi : index = s.calls.size
    · rw [if_pos hi] at hw
      cases hw
    · rw [if_neg hi] at hw
      exact hs w hw
  | absent | pushes | stops => exact hs w hw

/-- The worker of call number `index` has not looked at the running flag under this schedule. -/
def Unchecked (index : Nat) (s : System) (acts : List Act) : Prop :=
  ∀ before later w, acts = before ++ .advance index :: later →
    (s.after before).stage? index ≠ some (.active w)

namespace Unchecked

variable {index : Nat} {s : System} {a : Act} {acts : List Act}

theorem head (h : s.Unchecked index (a :: acts)) (ha : a = .advance index) (w : Worker) :
    s.stage? index ≠ some (.active w) :=
  h [] acts w (by rw [ha]; rfl)

theorem tail (h : s.Unchecked index (a :: acts)) : (s.act a).1.Unchecked index acts := by
  rintro before later w rfl
  exact h (a :: before) later w rfl

/-- Such a worker has completed no operator and reached none. -/
theorem idle (h : s.Unchecked index acts) :
    s.completions index acts = [] ∧ ∀ event ∈ s.shown index acts, event.isStep = false := by
  induction acts generalizing s with
  | nil => exact ⟨rfl, nofun⟩
  | cons a acts ih =>
    obtain ⟨hdone, hshown⟩ := ih h.tail
    have hnone : s.completion? index a = none := by
      by_cases ha : a = .advance index
      · rw [completion?, if_pos ha]
        cases hstage : s.stage? index with
        | none => rfl
        | some stage =>
          cases stage with
          | active w => exact absurd hstage (h.head ha w)
          | _ => rfl
      · rw [completion?, if_neg ha]
    refine ⟨?_, fun event hevent => ?_⟩
    · rw [completions, collect_cons, hnone]
      exact hdone
    · rw [shown_cons] at hevent
      rcases List.mem_append.mp hevent with hfirst | hlater
      · by_cases ha : a = .advance index
        · rw [if_pos ha, ha] at hfirst
          exact isStep_of_act (fun w hw => absurd hw (h.head ha w)) event hfirst
        · rw [if_neg ha] at hfirst
          cases hfirst
      · exact hshown event hlater

/-- Such a worker is still at the head of its first cycle. -/
theorem ready (hs : ∀ w, s.stage? index = some (.active w) → w.phase = .ready)
    (h : s.Unchecked index acts) :
    ∀ w, (s.after acts).stage? index = some (.active w) → w.phase = .ready := by
  induction acts generalizing s with
  | nil => exact hs
  | cons a acts ih => exact ih ((s.acts a).ready hs h.head) h.tail

end Unchecked

/-! ## The stop of a run -/

variable {memory index : Nat} {fresh : System} {before later : List Act} {c : Call}

theorem Raised.stopped (h : System.new memory = .ok fresh)
    (hraised : (fresh.after before).Raised index) :
    ∃ c, (fresh.after before).calls[index]? = some c ∧
      (fresh.after (before ++ [.stop])).Stopped memory c.program index c.stage [] [] 6 := by
  obtain ⟨stage, hstage, hkind⟩ := hraised
  obtain ⟨c, hc, rfl⟩ := exists_call_of_stage? hstage
  refine ⟨c, hc, exclusive_after h _, ?_, c, ?_, rfl, ?_⟩
  · rw [memory_after, (new_eq_ok h).2]
  · rw [after_append]
    exact hc
  · rw [after_append]
    exact .of_raised hkind (fun w hw => (worker_of_call h hc hw).1) rfl

/-- The system after a stop and more acts. -/
theorem after_stop (fresh : System) (before later : List Act) :
    fresh.after (before ++ .stop :: later) = (fresh.after (before ++ [.stop])).after later := by
  rw [← after_append, List.append_assoc, List.singleton_append]

/-- A call sets the running flag once. -/
theorem Raised.unset (h : System.new memory = .ok fresh)
    (hraised : (fresh.after before).Raised index) (later : List Act) :
    .raised index ∉ (fresh.after before).history later := by
  intro hagain
  -- the record of one call is that of its stage, which has the flag set once at most
  have honce : (fresh.history (before ++ later)).count (.raised index) ≤ 1 := by
    have hof : (Milestone.raised index).isOf index = true := Milestone.isOf_of_index? rfl
    rw [← List.count_filter hof, (ledger_of_new h (before ++ later)).record index]
    cases (fresh.after (before ++ later)).stage? index with
    | none => exact Nat.zero_le 1
    | some stage => cases stage <;> simp [Stage.milestones]
  have hfirst := List.count_pos_iff.mpr (hraised.mem_history h).2
  have hsecond := List.count_pos_iff.mpr hagain
  rw [history_append, List.count_append] at honce
  omega

/-- An operator that fails does so when the running flag is up. -/
theorem exists_in_flight (h : System.new memory = .ok fresh) {cause : Fault}
    (hstage : (fresh.after before).stage? index = some (.lowering (.failed cause))) :
    (∃ reason, cause = .noThread reason) ∨
    ∃ past w since, before = past ++ .advance index :: since ∧ .advance index ∉ since ∧
      (fresh.after past).stage? index = some (.active w) ∧
      (fresh.after past).engine.running = true ∧
      (w.sequential (fresh.after past).engine.queue).step w.program = .failed (.fault cause) := by
  obtain ⟨past, a, since, rfl, exit, -⟩ := exists_exit h (Nat.le_refl 2) hstage
  have hsince : .advance index ∉ since := by
    -- an act of the call would have taken back the flag
    have hended : ((fresh.after past).act a).1.stage? index =
        some (.closing (.failed cause) 2) := exit.stage?_eq
    have hafter := closing_after ((exclusive_after h past).acts ((fresh.after past).acts a))
      (Nat.le_refl 2) hended since
    rw [after_append, after_cons, hafter] at hstage
    rw [← List.count_eq_zero]
    obtain hcount | hcount | hcount :
        2 - since.count (.advance index) = 0 ∨ 2 - since.count (.advance index) = 1 ∨
          since.count (.advance index) = 0 := by omega
    · rw [hcount] at hstage
      cases hstage
    · rw [hcount] at hstage
      cases hstage
    · exact hcount
  generalize hr : Result.failed cause = r at exit
  cases exit with
  | @worker w _ _ _ stage moved =>
    subst hr
    have effect := Worker.effect_of_eq (sound_of_stage? h stage) moved
    -- with the flag down no operator would have been begun, and so none would have failed
    have hrunning : (fresh.after past).engine.running = true := by
      rw [← Bool.not_eq_false]
      intro hdown
      have halts := Worker.halts_of_eq hdown moved
      generalize w.completion? _ _ = done at halts
      cases halts
    generalize w.completion? _ _ = done at effect
    generalize hr : Result.failed cause = r at effect
    cases effect with
    | ends => cases hr
    | @fails failure _ failed =>
      cases failure <;> cases hr
      exact .inr ⟨past, w, since, rfl, hsince, stage, hrunning, failed⟩
  | tape call stage fault =>
    have hmemory : (fresh.after past).engine.memory ≠ 0 := by
      rw [memory_after, (new_eq_ok h).2]
      exact (new_eq_ok h).1
    simp [Worker.launch, Machine.start, Tape.blank, hmemory] at fault
  | @thread c reason =>
    cases hr
    exact .inl ⟨reason, rfl⟩
  | hook | room => cases hr

/-- A run whose worker has not looked at the flag before the stop has no operator at all. -/
theorem Unchecked.idle_after (h : System.new memory = .ok fresh) (hmemory : memory ≠ 0)
    (hunchecked : fresh.Unchecked index before) (hc : (fresh.after before).calls[index]? = some c)
    (hstopped :
      (fresh.after (before ++ [.stop])).Stopped memory c.program index c.stage [] [] 6)
    (later : List Act) :
    fresh.completions index (before ++ .stop :: later) = [] ∧
      ∀ event ∈ fresh.shown index (before ++ .stop :: later), event.isStep = false := by
  obtain ⟨hdone, hshown⟩ := hunchecked.idle
  have hnone : (fresh.after (before ++ [.stop])).completions index later = [] := by
    obtain ⟨_, -, -, hlater⟩ := (hstopped.after hmemory later).call
    have hflight := hlater.in_flight
    rw [List.nil_append] at hflight
    generalize (fresh.after (before ++ [.stop])).completions index later = done at hflight
    generalize hfound : c.stage = found at hflight
    cases hflight with
    | none => rfl
    | @read w _ inside =>
      -- inside a `,` the worker has looked at the flag
      have hready := hunchecked.ready
        (fun w hw => absurd ⟨_, hw, rfl⟩ (not_inStage_of_new h Stage.owns index)) w
        (hfound ▸ stage?_of_call hc)
      rcases inside with hphase | hphase | hphase <;> cases hready.symm.trans hphase
  constructor
  · rw [after_append] at hnone
    rw [completions_append, hdone, List.nil_append, completions, collect_cons, completion?,
      if_neg (by simp)]
    exact hnone
  · intro event hevent
    rw [shown_append] at hevent
    rcases List.mem_append.mp hevent with hbefore | hlater
    · exact hshown event hbefore
    · rw [shown_cons, if_neg (by simp), List.nil_append] at hlater
      exact hstopped.idle hmemory later event (by rw [after_append]; exact hlater)

/-- What a stop means to call number `index` of a fresh engine that comes after the acts `before` and
finds the call as `c`, when the acts `later` follow. -/
structure Obeys (memory : Nat) (fresh : System) (index : Nat) (before : List Act) (c : Call)
    (later : List Act) : Prop where
  /-- The running flag stays down as long as the run owns the engine. -/
  down : (fresh.after (before ++ .stop :: later)).Owns index →
    (fresh.after (before ++ .stop :: later)).engine.running = false
  /-- The run does not set it again. -/
  unset : .raised index ∉ (fresh.after (before ++ [.stop])).history later
  /-- The worker reaches no operator any more. -/
  idle : ∀ event ∈ (fresh.after (before ++ [.stop])).shown index later, event.isStep = false
  /-- If it is inside a `,`, that can still be completed, and no other operator can. -/
  in_flight : c.stage.InFlight ((fresh.after (before ++ [.stop])).completions index later)
  /-- Otherwise the machine stays as the stop has found it, its position included. -/
  stands : ∀ m, (fresh.after (before ++ .stop :: later)).machine? index = some m →
    ∃ m₀, c.stage.standsAt memory = some m₀ ∧
      m = lastMachine m₀ ((fresh.after (before ++ [.stop])).completions index later)
  /-- If the worker has not looked at the flag before, the run has no operator at all. -/
  unchecked : fresh.Unchecked index before →
    fresh.completions index (before ++ .stop :: later) = [] ∧
      ∀ event ∈ fresh.shown index (before ++ .stop :: later), event.isStep = false
  /-- The run is over after four more acts of the call, whatever happens in between, -/
  ends : 4 ≤ later.count (.advance index) → ∃ r flags, flags ≤ 2 ∧
    (fresh.after (before ++ .stop :: later)).stage? index = some (.closing r flags)
  /-- and the call returns after six. -/
  returns : 6 ≤ later.count (.advance index) →
    ∃ r, (fresh.after (before ++ .stop :: later)).result? index = some r
  /-- What it returns is decided by where the stop has found it and by the `,` in flight. -/
  verdict : ∀ r, (fresh.after (before ++ .stop :: later)).result? index = some r →
    c.stage.Verdict memory c.program index later
      ((fresh.after (before ++ [.stop])).completions index later) r
  /-- An outcome says whether the program was over when the worker last looked at the flag, in the act
  that ended the run. -/
  completed_iff : ∀ o, (fresh.after (before ++ .stop :: later)).result? index = some (.done o) →
    ∃ past w since, before ++ .stop :: later = past ++ .advance index :: since ∧
      (fresh.after past).stage? index = some (.active w) ∧
      (fresh.after (past ++ [.advance index])).stage? index = some (.lowering (.done o)) ∧
      o = w.machine.outcome w.program ∧
      (o.termination = .completed ↔ w.program.size ≤ w.machine.ip)
  /-- A fault is that of the operator that the stop has found in flight, if it is not that the call
  got no thread. -/
  failed : ∀ cause, (fresh.after (before ++ .stop :: later)).result? index = some (.failed cause) →
    (∃ reason, cause = .noThread reason) ∨
    ∃ past w since, before = past ++ .advance index :: since ∧ .advance index ∉ since ∧
      (fresh.after past).stage? index = some (.active w) ∧
      (fresh.after past).engine.running = true ∧
      (w.sequential (fresh.after past).engine.queue).step w.program = .failed (.fault cause)

theorem Raised.obeys (h : System.new memory = .ok fresh)
    (hraised : (fresh.after before).Raised index) (later : List Act) :
    ∃ c, (fresh.after before).calls[index]? = some c ∧
      Obeys memory fresh index before c later := by
  obtain ⟨c, hc, hstopped⟩ := hraised.stopped h
  have hmemory := (new_eq_ok h).1
  have hafter := hstopped.after hmemory later
  rw [List.nil_append, List.nil_append, ← after_stop] at hafter
  have hraised' : (fresh.after (before ++ [.stop])).Raised index := by
    rw [after_append]
    exact hraised
  obtain ⟨_, hc', -, hlater⟩ := hafter.call
  refine ⟨c, hc, ?_⟩
  exact {
    down := hafter.down
    unset := hraised'.unset h later
    idle := hstopped.idle hmemory later
    in_flight := hlater.in_flight
    stands := fun m => hafter.stands
    unchecked := fun hunchecked => hunchecked.idle_after h hmemory hc hstopped later
    ends := fun hcount => by
      obtain ⟨r, flags, hflags, hstage⟩ := hafter.closing (by omega)
      exact ⟨r, flags, by omega, hstage⟩
    returns := fun hcount => by
      obtain ⟨r, flags, hflags, hstage⟩ := hafter.closing (by omega)
      obtain rfl : flags = 0 := by omega
      exact ⟨r, by rw [result?_eq, hstage]; rfl⟩
    verdict := fun r hr => (hafter.verdict hr).1
    completed_iff := fun o hr => by
      obtain ⟨past, w, since, hsplit, hstage, rfl, hended, -⟩ :=
        exists_last_look h (Nat.zero_le 2) (hafter.verdict hr).2
      exact ⟨past, w, since, hsplit, hstage, hended, rfl, Machine.outcome_termination_iff _ _⟩
    failed := fun cause hr => by
      obtain ⟨hverdict, -⟩ := hafter.verdict hr
      generalize hresult : Result.failed cause = r at hverdict
      cases hverdict with
      | ended lowering =>
        subst hresult
        exact exists_in_flight h (by rw [stage?_of_call hc, lowering])
      | refused => cases hresult; exact .inl ⟨_, rfl⟩
      | halted | crashed => cases hresult }

/-- A run that says that it was stopped has been asked to stop after it set the running flag and
before it ended. -/
theorem stopped_of_cancelled (h : System.new memory = .ok fresh) {acts : List Act} {o : Outcome}
    (hr : (fresh.after acts).result? index = some (.done o)) (hcancelled : o.termination = .cancelled) :
    ∃ past since rest, fresh.history acts =
      past ++ .raised index :: since ++ .ended index (.done o) :: rest ∧ .stopped ∈ since := by
  obtain ⟨before, w, later, rfl, hstage, rfl, -, hcompleted, hhistory⟩ :=
    exists_last_look h (Nat.zero_le 2) (stage?_of_outcome hr)
  have hledger := ledger_of_new h before
  have hraised : (fresh.after before).Raised index := ⟨_, hstage, rfl⟩
  obtain ⟨past, since, hsplit⟩ := List.append_of_mem (hraised.mem_history h).2
  refine ⟨past, since, _, by rw [hhistory, hsplit], ?_⟩
  have hlowered : .lowered index ∉ since := by
    intro hmem
    have hpast : .lowered index ∈ fresh.history before := by simp [hsplit, hmem]
    obtain ⟨stage, hstage', hmem'⟩ := (hledger.mem_iff rfl).mp hpast
    cases hstage.symm.trans hstage'
    simp [Stage.milestones] at hmem'
  -- the flag would still be up if nobody had asked for a stop
  refine Decidable.byContradiction fun hstopped => ?_
  have hrunning : (fresh.after before).engine.running = true :=
    hledger.running_iff.mpr ⟨index, past, since, hsplit, hlowered, hstopped⟩
  rw [hcompleted hrunning] at hcancelled
  cases hcancelled

/-- A stop that comes before a run has taken back the running flag is final: `Obeys` says what it
means to the run. Such stops are those that somebody asks for who knows that the run has begun. A
run that nobody asks to stop between the moment it sets the flag and its end does not say that it was
stopped. -/
theorem stop_is_final (h : System.new memory = .ok fresh) (index : Nat) :
    (∀ seen since, (fresh.after seen).Announced index →
      .lowered index ∉ fresh.history (seen ++ since) → (fresh.after (seen ++ since)).Raised index) ∧
    (∀ before later, (fresh.after before).Raised index →
      ∃ c, (fresh.after before).calls[index]? = some c ∧ Obeys memory fresh index before c later) ∧
    ∀ acts o, (fresh.after acts).result? index = some (.done o) → o.termination = .cancelled →
      ∃ past since rest, fresh.history acts =
        past ++ .raised index :: since ++ .ended index (.done o) :: rest ∧ .stopped ∈ since := by
  refine ⟨fun seen since hannounced hlowered => ?_, fun before later hraised => hraised.obeys h later,
    fun acts o => stopped_of_cancelled h⟩
  exact (hannounced.raised (exclusive_after h seen)).of_history h hlowered

/-- A stop that finds the worker inside a `,`, whose byte comes after it. -/
theorem stop_is_final_of_echo :
    let fresh : System := ⟨⟨1, .empty, false, false⟩, #[]⟩
    let echo : Program := ⟨#[some .read, some .print]⟩
    let seen : List Act := [.call .run echo, .advance 0, .advance 0, .advance 0]
    let since : List Act := [.advance 0, .advance 0]
    let later : List Act := .push [7] :: List.replicate 4 (.advance 0)
    let o : Outcome := ⟨#[], .cancelled, ⟨#[7], 0⟩⟩
    System.new 1 = .ok fresh ∧ (fresh.after seen).Announced 0 ∧
      .lowered 0 ∉ fresh.history (seen ++ since) ∧
      (fresh.after (seen ++ since ++ .stop :: later)).result? 0 = some (.done o) ∧
      (∃ c, (fresh.after (seen ++ since)).calls[0]? = some c ∧
        Obeys 1 fresh 0 (seen ++ since) c later) ∧
      ∃ past asked rest, fresh.history (seen ++ since ++ .stop :: later) =
        past ++ .raised 0 :: asked ++ .ended 0 (.done o) :: rest ∧ .stopped ∈ asked := by
  intro fresh echo seen since later o
  have new : System.new 1 = .ok fresh := rfl
  have announced : (fresh.after seen).Announced 0 := .inl ⟨by decide, by decide⟩
  have unlowered : .lowered 0 ∉ fresh.history (seen ++ since) := by decide
  have hr : (fresh.after (seen ++ since ++ .stop :: later)).result? 0 = some (.done o) := by decide
  obtain ⟨known, final, asked⟩ := stop_is_final new 0
  exact ⟨new, announced, unlowered, hr, final _ later (known seen since announced unlowered),
    asked _ o hr rfl⟩

end Brainfuck.System
