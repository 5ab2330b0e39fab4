import Brainfuck.Proofs.Ownership

/-!
# The history of an engine

What happens to an engine under a schedule is written down as milestones: who took the engine and
who was turned away, whose run ended and with what result, who set and took back the flags, and
when a stop was asked for. `System.history` collects them.

The milestones of one call are always the ones its stage stands for (`Ledger.record`), in one fixed
order and each at most once: that is why no call takes or releases the engine twice, and why a run
that ends in any way releases it. The flags can be read off the history: `busy` shows that somebody
took the engine and has not released it, `running` that the owner has set the flag and since then
neither it nor a stop has taken it back (`Ledger.running_iff`).
-/

namespace Brainfuck

/-- Something that happens to the engine: a call is turned away, or it takes the engine, empties the
queue, sets the running flag, comes to the end of its run, takes back the running flag and takes
back the busy flag; or a thread asks for a stop. -/
inductive Milestone where
  | rejected (index : Nat)
  | took (index : Nat)
  | emptied (index : Nat)
  | raised (index : Nat)
  | ended (index : Nat) (result : Result)
  | lowered (index : Nat)
  | released (index : Nat)
  | stopped
  deriving DecidableEq

namespace Milestone

/-- The call that a milestone belongs to. -/
def index? : Milestone → Option Nat
  | .rejected index | .took index | .emptied index | .raised index | .ended index _
  | .lowered index | .released index => some index
  | .stopped => none

/-- The milestone belongs to call number `index`. -/
def isOf (index : Nat) (m : Milestone) : Bool :=
  decide (m.index? = some index)

theorem isOf_of_index? {index : Nat} {m : Milestone} (h : m.index? = some index) :
    m.isOf index = true :=
  decide_eq_true h

/-- The milestone is a store to the running flag. -/
def storesRunning : Milestone → Bool
  | .raised _ | .lowered _ | .stopped => true
  | _ => false

end Milestone

namespace Stage

/-- The milestone between two stages of call number `index`. -/
def milestone? (index : Nat) : Stage → Stage → Option Milestone
  | .requested, .rejected => some (.rejected index)
  | .requested, .taken => some (.took index)
  | .taken, .cleared => some (.emptied index)
  | .cleared, .launching => some (.raised index)
  | .launching, .lowering r => some (.ended index r)
  | .active _, .lowering r => some (.ended index r)
  | .lowering _, .releasing _ => some (.lowered index)
  | .releasing _, .returned _ => some (.released index)
  | _, _ => none

/-- The milestones that lie behind a stage of call number `index`. -/
def milestones (index : Nat) : Stage → List Milestone
  | .requested => []
  | .rejected => [.rejected index]
  | .taken => [.took index]
  | .cleared => [.took index, .emptied index]
  | .launching | .active _ => [.took index, .emptied index, .raised index]
  | .lowering r => [.took index, .emptied index, .raised index, .ended index r]
  | .releasing r => [.took index, .emptied index, .raised index, .ended index r, .lowered index]
  | .returned r =>
    [.took index, .emptied index, .raised index, .ended index r, .lowered index, .released index]

variable {program : Program} {e e' : Engine} {stage stage' : Stage}

theorem Moves.milestones_eq (index : Nat) (h : Moves program e stage e' stage') :
    stage'.milestones index =
      stage.milestones index ++ (stage.milestone? index stage').toList := by
  cases h <;> rfl

theorem Breaks.milestones_eq (index : Nat) (h : stage.Breaks stage') :
    stage'.milestones index =
      stage.milestones index ++ (stage.milestone? index stage').toList := by
  cases h with
  | rests => cases stage <;> rfl
  | _ => rfl

theorem isOf_of_milestone? {index : Nat} {m : Milestone}
    (h : stage.milestone? index stage' = some m) (i : Nat) :
    m.isOf i = decide (i = index) := by
  unfold milestone? at h
  split at h <;> cases h <;> simp [Milestone.isOf, Milestone.index?, eq_comm (a := i)]

/-- Where a run can end. -/
theorem of_milestone?_ended {i index : Nat} {r : Result}
    (h : stage.milestone? i stage' = some (.ended index r)) :
    i = index ∧ stage' = .lowering r ∧ (stage = .launching ∨ ∃ w, stage = .active w) := by
  unfold milestone? at h
  split at h <;> cases h
  · exact ⟨rfl, rfl, .inl rfl⟩
  · exact ⟨rfl, rfl, .inr ⟨_, rfl⟩⟩

/-- Which milestone goes with a store to the running flag. -/
theorem Moves.milestone_flag (index : Nat) (h : Moves program e stage e' stage') :
    (stage.milestone? index stage' = some (.raised index) ∧ e'.running = true) ∨
    ((∃ r, stage = .lowering r) ∧ stage.milestone? index stage' = some (.lowered index) ∧
      e'.running = false) ∨
    ((∀ m, stage.milestone? index stage' = some m → m.storesRunning = false) ∧
      e'.running = e.running) := by
  cases h with
  | raises => exact .inl ⟨rfl, rfl⟩
  | lowers => exact .inr (.inl ⟨⟨_, rfl⟩, rfl, rfl⟩)
  | _ => exact .inr (.inr ⟨fun m hm => by cases hm <;> rfl, rfl⟩)

theorem Breaks.milestone_flag (index : Nat) (h : stage.Breaks stage') (m : Milestone)
    (hm : stage.milestone? index stage' = some m) : m.storesRunning = false := by
  cases h with
  | rests => cases stage <;> cases hm
  | _ => cases hm; rfl

/-- A call sets the running flag before it takes it back. -/
theorem milestones_pairwise (index : Nat) (stage : Stage) :
    (stage.milestones index).Pairwise fun m m' => ¬ (m = .lowered index ∧ m' = .raised index) := by
  cases stage <;> simp [milestones]

end Stage

namespace System

/-- The milestone that lies between a system and the system after an act. -/
def milestone? (s : System) (a : Act) (s' : System) : Option Milestone :=
  match a with
  | .advance index | .refuse index _ | .crash index =>
    match s.stage? index, s'.stage? index with
    | some stage, some stage' => stage.milestone? index stage'
    | _, _ => none
  | .stop => some .stopped
  | .call _ _ | .push _ => none

/-- The milestones of a schedule. -/
def history (s : System) (acts : List Act) : List Milestone :=
  s.collect (fun s a => (s.milestone? a (s.act a).1).toList) acts

@[simp] theorem history_nil (s : System) : s.history [] = [] := rfl

@[simp] theorem history_cons (s : System) (a : Act) (acts : List Act) :
    s.history (a :: acts) =
      (s.milestone? a (s.act a).1).toList ++ (s.act a).1.history acts := rfl

variable {s s' : System} {a : Act} {index : Nat} {c : Call} {e : Engine} {stage : Stage}
  {past : List Milestone}

theorem milestone?_set (own : a = .advance index ∨ a.BreaksOff index)
    (call : s.calls[index]? = some c) (e : Engine) (stage : Stage) :
    s.milestone? a ⟨e, s.calls.setIfInBounds index { c with stage }⟩ =
      c.stage.milestone? index stage := by
  rcases own with rfl | rfl | ⟨reason, rfl⟩ <;>
    simp [milestone?, stage?_of_call call, stage?_set call]

theorem milestone?_absent (own : a = .advance index ∨ a.BreaksOff index)
    (call : s.calls[index]? = none) : s.milestone? a s = none := by
  have hstage : s.stage? index = none := by rw [stage?, call, Option.map_none]
  rcases own with rfl | rfl | ⟨reason, rfl⟩ <;> simp [milestone?, hstage]

theorem exists_stages_of_milestone? {m : Milestone} (own : a = .advance index ∨ a.BreaksOff index)
    (h : s.milestone? a s' = some m) : ∃ stage stage', s.stage? index = some stage ∧
      s'.stage? index = some stage' ∧ stage.milestone? index stage' = some m := by
  rcases own with rfl | rfl | ⟨reason, rfl⟩ <;>
  · simp only [milestone?] at h
    split at h
    · next stage stage' hstage hstage' => exact ⟨stage, stage', hstage, hstage', h⟩
    · cases h

/-! ## The running flag in the history -/

/-- Call number `index` has set the running flag, and since then neither has it taken the flag back
nor has a stop come. -/
def Flagged (index : Nat) (past : List Milestone) : Prop :=
  ∃ before since, past = before ++ .raised index :: since ∧
    Milestone.lowered index ∉ since ∧ Milestone.stopped ∉ since

theorem flagged_snoc (index : Nat) (past : List Milestone) (m : Milestone) :
    Flagged index (past ++ [m]) ↔
      m = .raised index ∨ (Flagged index past ∧ m ≠ .lowered index ∧ m ≠ .stopped) := by
  constructor
  · rintro ⟨before, since, hpast, hlowered, hstopped⟩
    rcases List.eq_nil_or_concat since with rfl | ⟨since', m', rfl⟩
    · exact .inl (List.head_eq_of_cons_eq (List.append_inj' hpast rfl).2)
    · rw [List.concat_eq_append] at hpast hlowered hstopped
      rw [← List.cons_append, ← List.append_assoc] at hpast
      obtain ⟨rfl, hm⟩ := List.append_inj' hpast rfl
      cases hm
      simp only [List.mem_append, List.mem_singleton, not_or] at hlowered hstopped
      exact .inr ⟨⟨before, since', rfl, hlowered.1, hstopped.1⟩, Ne.symm hlowered.2,
        Ne.symm hstopped.2⟩
  · rintro (rfl | ⟨⟨before, since, rfl, hlowered, hstopped⟩, hm, hm'⟩)
    · exact ⟨past, [], rfl, List.not_mem_nil, List.not_mem_nil⟩
    · refine ⟨before, since ++ [m], by simp, ?_, ?_⟩
      · simpa [hlowered] using Ne.symm hm
      · simpa [hstopped] using Ne.symm hm'

theorem flagged_append_of_quiet {m? : Option Milestone}
    (h : ∀ m, m? = some m → m.storesRunning = false) (index : Nat) (past : List Milestone) :
    Flagged index (past ++ m?.toList) ↔ Flagged index past := by
  cases m? with
  | none => rw [Option.toList_none, List.append_nil]
  | some m =>
    have hm := h m rfl
    rw [Option.toList_some, flagged_snoc]
    cases m <;> simp_all [Milestone.storesRunning]

/-! ## The ledger -/

/-- The history agrees with the stages of the calls and with the running flag. -/
structure Ledger (s : System) (past : List Milestone) : Prop where
  record : ∀ i, past.filter (·.isOf i) = (s.stage? i).elim [] (Stage.milestones i)
  running_iff : s.engine.running = true ↔ ∃ i, Flagged i past

/-- A milestone of a call is in the history exactly if the stage of the call stands for it. -/
theorem Ledger.mem_iff (h : s.Ledger past) {m : Milestone} {i : Nat} (hm : m.index? = some i) :
    m ∈ past ↔ ∃ stage, s.stage? i = some stage ∧ m ∈ stage.milestones i := by
  have hfilter : m ∈ past ↔ m ∈ past.filter (·.isOf i) := by
    simp [List.mem_filter, Milestone.isOf_of_index? hm]
  rw [hfilter, h.record i]
  cases s.stage? i with
  | none => simp
  | some stage => simp

/-- Who has the running flag in the history has it by its stage. -/
theorem Ledger.raised_of_flagged (h : s.Ledger past) {i : Nat} (hi : Flagged i past) :
    s.Raised i := by
  obtain ⟨before, since, rfl, hlowered, -⟩ := hi
  obtain ⟨stage, hstage, hraised⟩ := (h.mem_iff (m := .raised i) rfl).mp (by simp)
  -- the flag was not taken back since it was set, and not before, since that is not the order
  have hnot : Milestone.lowered i ∉ stage.milestones i := by
    intro hmem
    have hrecord := h.record i
    rw [hstage, Option.elim_some, List.filter_append,
      List.filter_cons_of_pos (Milestone.isOf_of_index? rfl)] at hrecord
    have hpairs := stage.milestones_pairwise i
    rw [← hrecord, List.pairwise_append] at hpairs
    rw [← hrecord] at hmem
    rcases List.mem_append.mp hmem with hbefore | hsince
    · exact hpairs.2.2 _ hbefore _ (List.mem_cons_self ..) ⟨rfl, rfl⟩
    · rcases List.mem_cons.mp hsince with heq | hmem'
      · cases heq
      · exact hlowered (List.mem_filter.mp hmem').1
  refine ⟨stage, hstage, ?_⟩
  cases stage <;> simp_all [Stage.milestones, Stage.raised]

theorem ledger_new {memory : Nat} (h : System.new memory = .ok s) : s.Ledger [] := by
  obtain ⟨-, rfl⟩ := new_eq_ok h
  refine ⟨fun i => by simp [stage?], ⟨nofun, ?_⟩⟩
  rintro ⟨i, before, since, hpast, -⟩
  simp at hpast

/-- The record of a call that moved goes on by the milestone of its move; the other records stay as
they are. -/
theorem Ledger.record_set (h : s.Ledger past) (call : s.calls[index]? = some c) (e : Engine)
    (hmilestones : stage.milestones index =
      c.stage.milestones index ++ (c.stage.milestone? index stage).toList) (i : Nat) :
    (past ++ (c.stage.milestone? index stage).toList).filter (·.isOf i) =
      ((⟨e, s.calls.setIfInBounds index { c with stage }⟩ : System).stage? i).elim []
        (Stage.milestones i) := by
  rw [List.filter_append, h.record i, stage?_set call]
  by_cases hi : i = index
  · subst hi
    rw [if_pos rfl, stage?_of_call call, Option.elim_some, Option.elim_some, hmilestones]
    congr 1
    cases hm : c.stage.milestone? i stage with
    | none => rfl
    | some m => simp [Stage.isOf_of_milestone? hm i]
  · rw [if_neg hi]
    cases hm : c.stage.milestone? index stage with
    | none => simp
    | some m => simp [Stage.isOf_of_milestone? hm i, hi]

theorem Ledger.acts (hs : s.Exclusive) (h : s.Ledger past) (acts : s.Acts a s') :
    s'.Ledger (past ++ (s.milestone? a s').toList) := by
  cases acts with
  | absent own call =>
    rw [milestone?_absent own call]
    simpa using h
  | @calls manner program =>
    have hstage := stage?_push s s.engine (.request manner program)
    have hquiet : s.milestone? (.call manner program)
        ⟨s.engine, s.calls.push (.request manner program)⟩ = none := rfl
    rw [hquiet, Option.toList_none, List.append_nil]
    refine ⟨fun i => ?_, h.running_iff⟩
    rw [h.record i, hstage i]
    by_cases hi : i = s.calls.size
    · rw [if_pos hi, hi, stage?_size]
      rfl
    · rw [if_neg hi]
  | @pushes bytes =>
    have hquiet : s.milestone? (.push bytes) ⟨s.engine.push bytes, s.calls⟩ = none := rfl
    rw [hquiet, Option.toList_none, List.append_nil]
    exact ⟨h.record, h.running_iff⟩
  | stops =>
    have hstopped : s.milestone? .stop ⟨s.engine.stop, s.calls⟩ = some .stopped := rfl
    rw [hstopped, Option.toList_some]
    refine ⟨fun i => ?_, ⟨nofun, ?_⟩⟩
    · have hnone : [Milestone.stopped].filter (·.isOf i) = [] := rfl
      rw [List.filter_append, hnone, List.append_nil]
      exact h.record i
    · rintro ⟨i, hi⟩
      rcases (flagged_snoc i past .stopped).mp hi with hm | ⟨-, -, hm⟩
      · cases hm
      · exact absurd rfl hm
  | breaks own call broken =>
    rw [milestone?_set (.inr own) call]
    refine ⟨h.record_set call _ (broken.milestones_eq _), ?_⟩
    rw [h.running_iff]
    exact exists_congr fun i =>
      (flagged_append_of_quiet (broken.milestone_flag _) i past).symm
  | @advances index c e stage call move =>
    rw [milestone?_set (.inl rfl) call]
    refine ⟨h.record_set call _ (move.milestones_eq _), ?_⟩
    rcases move.milestone_flag index with ⟨hm, hflag⟩ | ⟨⟨r, hr⟩, hm, hflag⟩ | ⟨hm, hflag⟩
    · rw [hm, hflag, Option.toList_some]
      exact ⟨fun _ => ⟨index, (flagged_snoc _ _ _).mpr (.inl rfl)⟩, fun _ => rfl⟩
    · -- only the owner takes the flag back, so nobody else can still have it
      rw [hm, hflag, Option.toList_some]
      refine ⟨nofun, ?_⟩
      rintro ⟨i, hi⟩
      rcases (flagged_snoc i past _).mp hi with heq | ⟨hi', hne, -⟩
      · cases heq
      · have hindex : s.Owns index := (inStage_call call _).mpr (by rw [hr]; rfl)
        exact absurd (hs.unique hindex (h.raised_of_flagged hi').owns) fun heq => hne (by rw [heq])
    · rw [hflag, h.running_iff]
      exact exists_congr fun i => (flagged_append_of_quiet hm i past).symm

theorem ledger_after (hs : s.Exclusive) (h : s.Ledger past) (acts : List Act) :
    (s.after acts).Ledger (past ++ s.history acts) := by
  induction acts generalizing s past with
  | nil => simpa using h
  | cons a acts ih =>
    have hnext := ih (hs.acts (s.acts a)) (h.acts hs (s.acts a))
    simpa [List.append_assoc] using hnext

end System

end Brainfuck
