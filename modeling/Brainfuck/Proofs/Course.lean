import Brainfuck.Proofs.Arrival
import Brainfuck.Proofs.Exclusion

/-!
# The course of a run

What the stage of a call says about the schedule that has led to it. A call whose running flag has
been set has emptied the queue at an earlier act, so it has begun in the sense of `Begun`
(`Raised.exists_begun`); a call that has returned has come to the end of its run at an earlier act,
and in one of the ways of `Exit` (`exists_exit`). Both go through the history: a stage stands for
its milestones, and a milestone lies at one act of the schedule.

`Announced` is what a thread that does not run the program itself can know: it has read the running
flag as set, or the call that spawns the run has returned to it.
-/

namespace Brainfuck.System

variable {memory index : Nat} {fresh s : System} {acts : List Act}

/-- A thread can know that call number `index` has begun: it reads the running flag as set while the
call owns the engine, or the call has returned the thread that it has spawned. -/
def Announced (index : Nat) (s : System) : Prop :=
  (s.Owns index ∧ s.engine.running = true) ∨
    ∃ c, s.calls[index]? = some c ∧ c.manner = .spawn ∧ c.stage.raised = true

theorem Announced.raised (h : s.Announced index) (hs : s.Exclusive) : s.Raised index := by
  rcases h with ⟨howns, hrunning⟩ | ⟨c, hc, -, hraised⟩
  · -- the flag is up for an owner, and there is only one
    obtain ⟨i, hi⟩ := hs.raised hrunning
    obtain rfl := hs.unique hi.owns howns
    exact hi
  · exact (inStage_call hc _).mpr hraised

/-! ## From a milestone to its act -/

theorem exclusive_after (h : System.new memory = .ok fresh) (acts : List Act) :
    (fresh.after acts).Exclusive :=
  (exclusive_new h).after acts

theorem ledger_of_new (h : System.new memory = .ok fresh) (acts : List Act) :
    (fresh.after acts).Ledger (fresh.history acts) :=
  ledger_after (exclusive_new h) (ledger_new h) acts

theorem history_append (s : System) (xs ys : List Act) :
    s.history (xs ++ ys) = s.history xs ++ (s.after xs).history ys :=
  collect_append _ s xs ys

/-- A milestone lies between the system before an act of the schedule and the system after it. -/
theorem exists_act_of_mem_history {m : Milestone} (h : m ∈ s.history acts) :
    ∃ before a later, acts = before ++ a :: later ∧
      (s.after before).milestone? a ((s.after before).act a).1 = some m := by
  obtain ⟨before, a, later, hacts, hm⟩ := exists_of_mem_collect h
  exact ⟨before, a, later, hacts, Option.mem_toList.mp hm⟩

/-- The milestones of a schedule around one of its acts. -/
theorem history_split {m : Milestone} {before later : List Act} {a : Act}
    (h : (s.after before).milestone? a ((s.after before).act a).1 = some m) :
    s.history (before ++ a :: later) =
      s.history before ++ m :: ((s.after before).act a).1.history later := by
  rw [history_append, history_cons, h]
  rfl

/-- The stages around the act of a call's milestone. -/
theorem stages_of_milestone? {a : Act} {m : Milestone} (hindex : m.index? = some index)
    (h : s.milestone? a (s.act a).1 = some m) :
    (a = .advance index ∨ a.BreaksOff index) ∧ ∃ stage stage', s.stage? index = some stage ∧
      (s.act a).1.stage? index = some stage' ∧ stage.milestone? index stage' = some m := by
  -- an act has a milestone of the call that it belongs to, and of no other
  have of_own : ∀ i, (a = .advance i ∨ a.BreaksOff i) →
      (a = .advance index ∨ a.BreaksOff index) ∧ ∃ stage stage', s.stage? index = some stage ∧
        (s.act a).1.stage? index = some stage' ∧ stage.milestone? index stage' = some m := by
    intro i own
    obtain ⟨stage, stage', hstage, hstage', hm⟩ := exists_stages_of_milestone? own h
    obtain rfl : index = i := by
      have hof := Stage.isOf_of_milestone? hm index
      rw [Milestone.isOf_of_index? hindex] at hof
      exact of_decide_eq_true hof.symm
    exact ⟨own, stage, stage', hstage, hstage', hm⟩
  cases a with
  | advance i => exact of_own i (.inl rfl)
  | refuse i reason => exact of_own i (.inr (.inr ⟨reason, rfl⟩))
  | crash i => exact of_own i (.inr (.inl rfl))
  | stop => cases h; cases hindex
  | call manner program | push bytes => cases h

/-- A call that has set the running flag has emptied the queue before. -/
theorem Raised.mem_history (h : System.new memory = .ok fresh)
    (hraised : (fresh.after acts).Raised index) :
    .emptied index ∈ fresh.history acts ∧ .raised index ∈ fresh.history acts := by
  obtain ⟨stage, hstage, hkind⟩ := hraised
  have hledger := ledger_of_new h acts
  rw [hledger.mem_iff (m := .emptied index) rfl, hledger.mem_iff (m := .raised index) rfl]
  refine ⟨⟨stage, hstage, ?_⟩, stage, hstage, ?_⟩ <;>
    cases stage <;> simp_all [Stage.raised, Stage.milestones]

/-- A call that has set the running flag keeps it until the history says that it takes it back. -/
theorem Raised.of_history (h : System.new memory = .ok fresh) {later : List Act}
    (hraised : (fresh.after acts).Raised index)
    (hlowered : .lowered index ∉ fresh.history (acts ++ later)) :
    (fresh.after (acts ++ later)).Raised index := by
  have hpast : .raised index ∈ fresh.history (acts ++ later) := by
    rw [history_append]
    exact List.mem_append_left _ (hraised.mem_history h).2
  have hledger := ledger_of_new h (acts ++ later)
  obtain ⟨stage, hstage, hmem⟩ := (hledger.mem_iff rfl).mp hpast
  have hnot : .lowered index ∉ stage.milestones index :=
    fun hmem' => hlowered ((hledger.mem_iff rfl).mpr ⟨stage, hstage, hmem'⟩)
  refine ⟨stage, hstage, ?_⟩
  cases stage <;> simp_all [Stage.raised, Stage.milestones]

/-! ## The beginning of a run -/

/-- Only a call that has just taken the engine empties the queue. -/
theorem of_milestone?_emptied {a : Act} (h : s.milestone? a (s.act a).1 = some (.emptied index)) :
    a = .advance index ∧ s.stage? index = some .taken := by
  obtain ⟨own, stage, stage', hstage, -, hm⟩ := stages_of_milestone? rfl h
  obtain rfl : stage = .taken := by
    unfold Stage.milestone? at hm
    split at hm <;> cases hm
    rfl
  refine ⟨own.resolve_right fun breaks => ?_, hstage⟩
  obtain ⟨c, hc, htaken⟩ := exists_call_of_stage? hstage
  rcases breaks with rfl | ⟨reason, rfl⟩ <;> obtain ⟨manner, program, _⟩ := c <;> subst htaken
  · simp [act, milestone?, stage?, Array.getElem?_modify, hc, Call.crash, Stage.milestone?] at h
  · cases manner <;>
      simp [act, milestone?, stage?, Array.getElem?_modify, hc, Call.refuse, Stage.milestone?] at h

/-- The call at an index keeps its program. -/
theorem exists_call_after (h : System.new memory = .ok fresh) {before : List Act} {c : Call}
    (hc : (fresh.after before).calls[index]? = some c) (later : List Act) :
    ∃ stage, (fresh.after (before ++ later)).calls[index]? = some { c with stage } := by
  rw [after_append]
  have hs := exclusive_after h before
  generalize fresh.after before = s at hc hs
  induction later generalizing s c with
  | nil => exact ⟨c.stage, hc⟩
  | cons a later ih =>
    obtain ⟨stage, hc', -⟩ := (s.acts a).sees hs hc
    have hlater := ih (s.act a).1 hc' (hs.acts (s.acts a))
    exact hlater

/-- The act in which a call that has set the running flag has emptied the queue. -/
theorem Raised.exists_begun (h : System.new memory = .ok fresh)
    (hraised : (fresh.after acts).Raised index) : ∃ c before since,
      acts = before ++ .advance index :: since ∧ (fresh.after acts).calls[index]? = some c ∧
        (fresh.after before).stage? index = some .taken ∧
        (fresh.after (before ++ [.advance index])).Begun memory c.program index := by
  obtain ⟨before, a, since, rfl, hm⟩ := exists_act_of_mem_history (hraised.mem_history h).1
  obtain ⟨rfl, htaken⟩ := of_milestone?_emptied hm
  obtain ⟨c, hc, hctaken⟩ := exists_call_of_stage? htaken
  obtain ⟨stage', hc'⟩ := exists_call_after h hc (.advance index :: since)
  refine ⟨_, before, since, rfl, hc', htaken, fresh, before, c, h, hc, rfl, hctaken, ?_⟩
  rw [after_append]
  rfl

/-- A call that has set the running flag is on the path of its program. -/
theorem Raised.exists_onPath (h : System.new memory = .ok fresh)
    (hraised : (fresh.after acts).Raised index) :
    ∃ c origin stream done, (fresh.after acts).calls[index]? = some c ∧
      (fresh.after acts).OnPath c.program origin index stream done := by
  obtain ⟨c, before, since, rfl, hc, -, begun⟩ := hraised.exists_begun h
  obtain ⟨origin, -, hpath⟩ := begun.onPath
  have hafter := hpath.after since
  rw [← after_append, List.append_assoc, List.singleton_append] at hafter
  exact ⟨c, origin, _, _, hc, hafter⟩

/-- The worker of a call carries out the program of the call, and is sound. -/
theorem worker_of_call (h : System.new memory = .ok fresh) {c : Call} {w : Worker}
    (hc : (fresh.after acts).calls[index]? = some c) (hw : c.stage = .active w) :
    w.program = c.program ∧ w.Sound := by
  have hstage := stage?_of_call hc
  rw [hw] at hstage
  obtain ⟨c', origin, stream, done, hc', hpath⟩ := Raised.exists_onPath h ⟨_, hstage, rfl⟩
  cases hc.symm.trans hc'
  exact ⟨(hpath.follows hstage).1, hpath.sound hstage⟩

theorem sound_of_stage? (h : System.new memory = .ok fresh) {w : Worker}
    (hstage : (fresh.after acts).stage? index = some (.active w)) : w.Sound := by
  obtain ⟨c, hc, hw⟩ := exists_call_of_stage? hstage
  exact (worker_of_call h hc hw).2

/-! ## The end of a run -/

/-- A call that has returned, other than one that was turned away, has come to the end of its run
in one of the ways in which a run ends. -/
theorem exists_exit (h : System.new memory = .ok fresh) {r : Result} {flags : Nat}
    (hflags : flags ≤ 2) (hstage : (fresh.after acts).stage? index = some (.closing r flags)) :
    ∃ before a later, acts = before ++ a :: later ∧ (fresh.after before).Exit index a r ∧
      fresh.history acts = fresh.history before ++ .ended index r ::
        ((fresh.after before).act a).1.history later := by
  have hended : .ended index r ∈ fresh.history acts := by
    refine ((ledger_of_new h acts).mem_iff rfl).mpr ⟨_, hstage, ?_⟩
    obtain rfl | rfl | rfl : flags = 0 ∨ flags = 1 ∨ flags = 2 := by omega
    all_goals simp [Stage.closing, Stage.milestones]
  obtain ⟨before, a, later, rfl, hm⟩ := exists_act_of_mem_history hended
  exact ⟨before, a, later, rfl, .of_history (history_single hm), history_split hm⟩

/-- A call with an outcome has returned. -/
theorem stage?_of_outcome {o : Outcome} (hr : s.result? index = some (.done o)) :
    s.stage? index = some (.closing (.done o) 0) := by
  rw [result?_eq] at hr
  obtain ⟨stage, hstage, hresult⟩ := Option.bind_eq_some_iff.mp hr
  rw [hstage]
  cases stage with
  | returned r => cases hresult; rfl
  | _ => cases hresult

/-- A run with an outcome has come to its end when its worker looked at the running flag for the last
time. -/
theorem exists_last_look (h : System.new memory = .ok fresh) {o : Outcome} {flags : Nat}
    (hflags : flags ≤ 2)
    (hstage : (fresh.after acts).stage? index = some (.closing (.done o) flags)) :
    ∃ before w later, acts = before ++ .advance index :: later ∧
      (fresh.after before).stage? index = some (.active w) ∧ o = w.machine.outcome w.program ∧
      (fresh.after (before ++ [.advance index])).stage? index = some (.lowering (.done o)) ∧
      ((fresh.after before).engine.running = true → o.termination = .completed) ∧
      fresh.history acts = fresh.history before ++ .ended index (.done o) ::
        ((fresh.after before).act (.advance index)).1.history later := by
  obtain ⟨before, a, later, rfl, exit, hhistory⟩ := exists_exit h hflags hstage
  have hended : (fresh.after (before ++ [a])).stage? index = some (.lowering (.done o)) := by
    rw [after_append]
    exact exit.stage?_eq
  generalize hr : Result.done o = r at exit
  cases exit with
  | worker stage moved =>
    subst hr
    have effect := Worker.effect_of_eq (sound_of_stage? h stage) moved
    generalize Worker.completion? _ _ _ = done at effect
    generalize hr : Result.done o = r at effect
    cases effect with
    | ends finish =>
      cases hr
      exact ⟨before, _, later, rfl, stage, rfl, hended,
        fun hrunning => (Machine.outcome_termination_iff _ _).mpr (finish hrunning), hhistory⟩
    | @fails failure => cases failure <;> cases hr
  | hook | tape | room | thread => cases hr

end Brainfuck.System
