import Brainfuck.Proofs.Calls
import Brainfuck.Proofs.History

/-!
# Runs exclude each other

Whatever the threads do, an engine is governed (`System.Governed`): one call at most owns it, the
two flags say what the history says about them, a call that finds the engine busy changes nothing,
and a run that ends, in whichever of the ways that `System.Exit` lists, takes back both flags, once
and in this order. `engine_ownership` proves it of every schedule from the invariants `Exclusive`
and `Ledger`.
-/

namespace Brainfuck.System

variable {s : System} {index : Nat} {past : List Milestone}

/-! ## A run that is over -/

/-- Two more acts of a call whose run is over release the engine. -/
theorem Ledger.released (hs : s.Exclusive) (h : s.Ledger past) {r : Result}
    (hended : .ended index r ∈ past) {later : List Act}
    (hlater : 2 ≤ later.count (.advance index)) : .released index ∈ past ++ s.history later := by
  obtain ⟨stage, hstage, hmem⟩ := (h.mem_iff rfl).mp hended
  -- a call whose run has ended is closing
  have hclosing : ∃ flags, flags ≤ 2 ∧ stage = .closing r flags := by
    cases stage with
    | lowering r' =>
      obtain rfl : r = r' := by simpa [Stage.milestones] using hmem
      exact ⟨2, Nat.le_refl 2, rfl⟩
    | releasing r' =>
      obtain rfl : r = r' := by simpa [Stage.milestones] using hmem
      exact ⟨1, by omega, rfl⟩
    | returned r' =>
      obtain rfl : r = r' := by simpa [Stage.milestones] using hmem
      exact ⟨0, by omega, rfl⟩
    | _ => simp [Stage.milestones] at hmem
  obtain ⟨flags, hflags, rfl⟩ := hclosing
  have hafter := closing_after hs hflags hstage later
  rw [show flags - later.count (.advance index) = 0 by omega] at hafter
  refine ((ledger_after hs h later).mem_iff rfl).mpr ⟨_, hafter, ?_⟩
  simp [Stage.closing, Stage.milestones]

/-- A call takes back the running flag before the busy flag. -/
theorem Ledger.lowered_of_released (h : s.Ledger past) (hreleased : .released index ∈ past) :
    .lowered index ∈ past := by
  obtain ⟨stage, hstage, hmem⟩ := (h.mem_iff rfl).mp hreleased
  refine (h.mem_iff rfl).mpr ⟨stage, hstage, ?_⟩
  cases stage <;> simp_all [Stage.milestones]

/-- The ways in which the run of a call ends: by which act and with which result. -/
inductive Exit (s : System) (index : Nat) : Act → Result → Prop where
  /-- The worker comes to the end of the program, to a stop, or to an operator that fails. -/
  | worker {w : Worker} {r : Result} {queue : ByteQueue} {events : List Event}
      (stage : s.stage? index = some (.active w))
      (finish : w.advance s.engine.running s.engine.queue = ⟨.ended r, queue, events⟩) :
      Exit s index (.advance index) r
  /-- The output sink or the input-wanted hook breaks off. -/
  | hook {w : Worker} (stage : s.stage? index = some (.active w)) (inside : w.inHook = true) :
      Exit s index (.crash index) .crashed
  /-- No tape can be made. -/
  | tape {c : Call} {cause : Fault} (call : s.calls[index]? = some c) (stage : c.stage = .launching)
      (fault : Worker.launch c.program s.engine.memory = .error cause) :
      Exit s index (.advance index) (.failed cause)
  /-- There is no room for the cells. -/
  | room (stage : s.stage? index = some .launching) : Exit s index (.crash index) .crashed
  /-- No thread can be had. -/
  | thread {c : Call} {reason : String} (call : s.calls[index]? = some c)
      (manner : c.manner = .spawn) (stage : c.stage = .launching) :
      Exit s index (.refuse index reason) (.failed (.noThread reason))

theorem history_single {a : Act} {m : Milestone} (h : s.milestone? a (s.act a).1 = some m) :
    s.history [a] = [m] := by
  simp [h]

/-- The milestone of a call that goes from one stage to another. -/
theorem milestone?_eq {a : Act} (own : a = .advance index ∨ a.BreaksOff index)
    {stage stage' : Stage} (h : s.stage? index = some stage)
    (h' : (s.act a).1.stage? index = some stage') :
    s.milestone? a (s.act a).1 = stage.milestone? index stage' := by
  rcases own with rfl | rfl | ⟨reason, rfl⟩ <;> simp [milestone?, h, h']

theorem Exit.stage?_eq {a : Act} {r : Result} (h : s.Exit index a r) :
    (s.act a).1.stage? index = some (.lowering r) := by
  cases h with
  | @worker w _ queue events stage finish =>
    obtain ⟨⟨manner, program, _⟩, hc, rfl⟩ := exists_call_of_stage? stage
    obtain ⟨hlt, hget⟩ := Array.getElem?_eq_some_iff.mp hc
    simp [act, advance_of_lt s hlt, stage?, hget, Call.advance, finish]
  | hook stage inside =>
    obtain ⟨⟨manner, program, _⟩, hc, rfl⟩ := exists_call_of_stage? stage
    simp [act, stage?, Array.getElem?_modify, hc, Call.crash, inside]
  | @tape c cause call stage fault =>
    obtain ⟨manner, program, _⟩ := c
    obtain ⟨hlt, hget⟩ := Array.getElem?_eq_some_iff.mp call
    subst stage
    simp [act, advance_of_lt s hlt, stage?, hget, Call.advance, fault]
  | room stage =>
    obtain ⟨⟨manner, program, _⟩, hc, rfl⟩ := exists_call_of_stage? stage
    simp [act, stage?, Array.getElem?_modify, hc, Call.crash]
  | @thread c reason call manner stage =>
    obtain ⟨_, program, _⟩ := c
    subst manner stage
    simp [act, stage?, Array.getElem?_modify, call, Call.refuse]

/-- However a run ends, its end is a milestone. -/
theorem Exit.history_eq {a : Act} {r : Result} (h : s.Exit index a r) :
    s.history [a] = [.ended index r] := by
  have hafter := h.stage?_eq
  refine history_single ?_
  cases h with
  | worker stage => rw [milestone?_eq (.inl rfl) stage hafter]; rfl
  | hook stage => rw [milestone?_eq (.inr (.inl rfl)) stage hafter]; rfl
  | tape call stage =>
    rw [milestone?_eq (.inl rfl) (stage?_of_call call) hafter, stage]; rfl
  | room stage => rw [milestone?_eq (.inr (.inl rfl)) stage hafter]; rfl
  | thread call manner stage =>
    rw [milestone?_eq (.inr (.inr ⟨_, rfl⟩)) (stage?_of_call call) hafter, stage]; rfl

/-- An act that ends a run is one of its own call, and finds that call launching or active. -/
theorem stages_of_ended {a : Act} {i : Nat} {r : Result} (own : a = .advance i ∨ a.BreaksOff i)
    (h : s.milestone? a (s.act a).1 = some (.ended index r)) :
    i = index ∧ ∃ c, s.calls[index]? = some c ∧ (c.stage = .launching ∨ ∃ w, c.stage = .active w) ∧
      (s.act a).1.stage? index = some (.lowering r) := by
  obtain ⟨stage, stage', hstage, hstage', hm⟩ := exists_stages_of_milestone? own h
  obtain ⟨rfl, rfl, hbefore⟩ := Stage.of_milestone?_ended hm
  obtain ⟨c, hc, rfl⟩ := exists_call_of_stage? hstage
  exact ⟨rfl, c, hc, hbefore, hstage'⟩

/-- There is no other way for a run to end. -/
theorem Exit.of_history {a : Act} {r : Result} (h : s.history [a] = [.ended index r]) :
    s.Exit index a r := by
  have hm : s.milestone? a (s.act a).1 = some (.ended index r) := by
    rw [history_cons, history_nil, List.append_nil] at h
    exact Option.toList_eq_singleton_iff.mp h
  cases a with
  | call | push | stop => cases hm
  | advance i =>
    obtain ⟨rfl, c, hc, hbefore, hafter⟩ := stages_of_ended (.inl rfl) hm
    obtain ⟨stage', hcall, hmove⟩ := Call.advance_moves s.engine c
    rw [act_advance hc, hcall, stage?_set hc, if_pos rfl] at hafter
    cases hafter
    generalize (c.advance s.engine).engine = e' at hmove
    rcases hbefore with hlaunching | ⟨w, hactive⟩
    · rw [hlaunching] at hmove
      cases hmove with
      | falters worker => exact .tape hc hlaunching worker
    · rw [hactive] at hmove
      cases hmove with
      | ends moved => exact .worker (by rw [stage?_of_call hc, hactive]) moved
  | refuse i reason =>
    obtain ⟨rfl, ⟨manner, program, stage⟩, hc, hbefore, hafter⟩ :=
      stages_of_ended (.inr (.inr ⟨reason, rfl⟩)) hm
    simp only [act, modify_eq_set _ hc, stage?_set hc, if_pos] at hafter
    rcases hbefore with rfl | ⟨w, rfl⟩
    · cases manner with
      | run => cases hafter
      | spawn => cases hafter; exact .thread hc rfl rfl
    · cases manner <;> cases hafter
  | crash i =>
    obtain ⟨rfl, ⟨manner, program, stage⟩, hc, hbefore, hafter⟩ :=
      stages_of_ended (.inr (.inl rfl)) hm
    simp only [act, modify_eq_set _ hc, stage?_set hc, if_pos] at hafter
    rcases hbefore with rfl | ⟨w, rfl⟩
    · cases hafter
      exact .room (stage?_of_call hc)
    · cases hinside : w.inHook with
      | true =>
        simp only [Call.crash, hinside, if_pos] at hafter
        cases hafter
        exact .hook (stage?_of_call hc) hinside
      | false => simp [Call.crash, hinside] at hafter

/-! ## Calls to a busy and to a free engine -/

/-- Making a call changes nothing but the list of calls. -/
theorem act_call (s : System) (manner : Manner) (program : Program) :
    (s.act (.call manner program)).1.engine = s.engine ∧
      ∀ j < s.calls.size, (s.act (.call manner program)).1.calls[j]? = s.calls[j]? := by
  refine ⟨rfl, fun j hj => ?_⟩
  rw [act, Array.getElem?_push_lt hj, Array.getElem?_eq_getElem hj]

/-- A call that finds the engine busy fails, and nothing else happens. -/
theorem act_rejects (hbusy : s.engine.busy = true) (h : s.stage? index = some .requested) :
    (s.act (.advance index)).1.result? index = some (.failed .engineBusy) ∧
      (s.act (.advance index)).1.engine = s.engine ∧
      ∀ j ≠ index, (s.act (.advance index)).1.calls[j]? = s.calls[j]? := by
  obtain ⟨⟨manner, program, _⟩, hc, rfl⟩ := exists_call_of_stage? h
  obtain ⟨hlt, hget⟩ := Array.getElem?_eq_some_iff.mp hc
  have hact : (s.act (.advance index)).1 =
      ⟨s.engine, s.calls.set index ⟨manner, program, .rejected⟩ hlt⟩ := by
    simp [act, advance_of_lt s hlt, hget, Call.advance, hbusy]
  rw [hact]
  refine ⟨by simp [result?, Call.result?], rfl, fun j hj => ?_⟩
  exact Array.getElem?_set_ne hlt (Ne.symm hj)

/-- A call that finds the engine free takes it. -/
theorem history_takes (hfree : s.engine.busy = false) (h : s.stage? index = some .requested) :
    s.history [.advance index] = [.took index] := by
  obtain ⟨⟨manner, program, _⟩, hc, rfl⟩ := exists_call_of_stage? h
  obtain ⟨hlt, hget⟩ := Array.getElem?_eq_some_iff.mp hc
  have hafter : (s.act (.advance index)).1.stage? index = some .taken := by
    simp [act, advance_of_lt s hlt, stage?, hget, Call.advance, hfree]
  refine history_single ?_
  rw [milestone?_eq (.inl rfl) h hafter]
  rfl

/-- A call that releases the engine leaves both flags down. -/
theorem Exclusive.act_releases (hs : s.Exclusive) {r : Result}
    (h : s.stage? index = some (.releasing r)) :
    (s.act (.advance index)).1.engine.running = false ∧
      (s.act (.advance index)).1.engine.busy = false ∧
      (s.act (.advance index)).1.result? index = some r := by
  obtain ⟨⟨manner, program, _⟩, hc, rfl⟩ := exists_call_of_stage? h
  obtain ⟨hlt, hget⟩ := Array.getElem?_eq_some_iff.mp hc
  have hact : (s.act (.advance index)).1 =
      ⟨{ s.engine with busy := false }, s.calls.set index ⟨manner, program, .returned r⟩ hlt⟩ := by
    simp [act, advance_of_lt s hlt, hget, Call.advance]
  have hlowered : s.engine.running = false := by
    -- a raised flag would belong to another owner
    rw [Bool.eq_false_iff]
    intro hrunning
    obtain ⟨i, hi⟩ := hs.raised hrunning
    obtain rfl := hs.unique hi.owns (j := index) ((inStage_call hc _).mpr rfl)
    cases (inStage_call hc _).mp hi
  rw [hact]
  exact ⟨hlowered, rfl, by simp [result?, Call.result?]⟩

/-! ## The engine and its history -/

/-- The rules that an engine with this history obeys. -/
structure Governed (s : System) (past : List Milestone) : Prop where
  /-- At most one call owns the engine. -/
  one_owner : ∀ {i j}, s.Owns i → s.Owns j → i = j
  /-- A call owns the engine from when it takes it until it releases it. -/
  owns_iff : ∀ i, s.Owns i ↔ .took i ∈ past ∧ .released i ∉ past
  /-- The busy flag says that somebody owns the engine. -/
  busy_iff : s.engine.busy = true ↔ ∃ i, s.Owns i
  /-- A running engine is busy. -/
  busy_of_running : s.engine.running = true → s.engine.busy = true
  /-- The running flag says that the owner has set it, and since then neither has the owner taken it
  back nor has anybody asked for a stop. -/
  running_iff : s.engine.running = true ↔ ∃ i, s.Owns i ∧ Flagged i past
  /-- A call does nothing to the engine and to the other calls when it is made. -/
  calling : ∀ manner program, (s.act (.call manner program)).1.engine = s.engine ∧
    ∀ j < s.calls.size, (s.act (.call manner program)).1.calls[j]? = s.calls[j]?
  /-- A call that finds the engine busy fails and leaves the engine and the other calls as they
  are. -/
  rejects : ∀ i, s.engine.busy = true → s.stage? i = some .requested →
    (s.act (.advance i)).1.result? i = some (.failed .engineBusy) ∧
      (s.act (.advance i)).1.engine = s.engine ∧
      ∀ j ≠ i, (s.act (.advance i)).1.calls[j]? = s.calls[j]?
  /-- A call that finds the engine free takes it. -/
  takes : ∀ i, s.engine.busy = false → s.stage? i = some .requested →
    s.history [.advance i] = [.took i]
  /-- A call is turned away, or it takes the engine, empties the queue, sets the running flag, ends,
  takes back the running flag and takes back the busy flag: each once, and in this order. -/
  in_order : ∀ i, past.filter (·.isOf i) = [.rejected i] ∨ ∃ r, past.filter (·.isOf i) <+:
    [.took i, .emptied i, .raised i, .ended i r, .lowered i, .released i]
  /-- A call returns when it is turned away, and otherwise only once its run has ended and it has
  taken back both flags. -/
  result_iff : ∀ i r, s.result? i = some r ↔ (.rejected i ∈ past ∧ r = .failed .engineBusy) ∨
    (.ended i r ∈ past ∧ .lowered i ∈ past ∧ .released i ∈ past)
  /-- A run ends in the ways that `Exit` lists, and in no other. -/
  exits : ∀ i a r, s.Exit i a r ↔ s.history [a] = [.ended i r]
  /-- A run that has ended takes back both flags in its next two acts, whatever happens in
  between. -/
  finishes : ∀ {i r}, .ended i r ∈ past → ∀ later : List Act, 2 ≤ later.count (.advance i) →
    .lowered i ∈ past ++ s.history later ∧ .released i ∈ past ++ s.history later
  /-- When the busy flag is taken back, both flags are down and the call has its result. -/
  releases : ∀ {i r}, s.stage? i = some (.releasing r) →
    (s.act (.advance i)).1.engine.running = false ∧ (s.act (.advance i)).1.engine.busy = false ∧
      (s.act (.advance i)).1.result? i = some r

theorem Ledger.owns_iff (h : s.Ledger past) (i : Nat) :
    s.Owns i ↔ .took i ∈ past ∧ .released i ∉ past := by
  rw [h.mem_iff (m := .took i) rfl, h.mem_iff (m := .released i) rfl]
  unfold Owns InStage
  cases hstage : s.stage? i with
  | none => simp
  | some stage => cases stage <;> simp [Stage.owns, Stage.milestones]

theorem Ledger.in_order (h : s.Ledger past) (i : Nat) :
    past.filter (·.isOf i) = [.rejected i] ∨ ∃ r, past.filter (·.isOf i) <+:
      [.took i, .emptied i, .raised i, .ended i r, .lowered i, .released i] := by
  rw [h.record i]
  cases hstage : s.stage? i with
  | none => exact .inr ⟨.crashed, List.nil_prefix⟩
  | some stage =>
    cases stage with
    | rejected => exact .inl rfl
    | lowering r => exact .inr ⟨r, by simp [Stage.milestones, List.cons_prefix_cons]⟩
    | releasing r => exact .inr ⟨r, by simp [Stage.milestones, List.cons_prefix_cons]⟩
    | returned r => exact .inr ⟨r, by simp [Stage.milestones]⟩
    | _ => exact .inr ⟨.crashed, by simp [Stage.milestones, List.cons_prefix_cons]⟩

theorem Ledger.result_iff (h : s.Ledger past) (i : Nat) (r : Result) :
    s.result? i = some r ↔ (.rejected i ∈ past ∧ r = .failed .engineBusy) ∨
      (.ended i r ∈ past ∧ .lowered i ∈ past ∧ .released i ∈ past) := by
  rw [h.mem_iff (m := .rejected i) rfl, h.mem_iff (m := .ended i r) rfl,
    h.mem_iff (m := .lowered i) rfl, h.mem_iff (m := .released i) rfl, result?_eq]
  cases s.stage? i with
  | none => simp
  | some stage => cases stage <;> simp [Stage.result?, Stage.milestones, eq_comm]

/-- An engine is governed after every schedule. -/
theorem engine_ownership {memory : Nat} {fresh : System} (h : System.new memory = .ok fresh)
    (acts : List Act) : (fresh.after acts).Governed (fresh.history acts) := by
  have hs : (fresh.after acts).Exclusive := (exclusive_new h).after acts
  have hpast : (fresh.after acts).Ledger (fresh.history acts) :=
    ledger_after (exclusive_new h) (ledger_new h) acts
  exact {
    one_owner := hs.unique
    owns_iff := hpast.owns_iff
    busy_iff := hs.busy_iff
    busy_of_running := fun hrunning => by
      obtain ⟨i, hi⟩ := hs.raised hrunning
      exact hs.busy_iff.mpr ⟨i, hi.owns⟩
    running_iff := by
      rw [hpast.running_iff]
      exact exists_congr fun i =>
        ⟨fun hi => ⟨(hpast.raised_of_flagged hi).owns, hi⟩, And.right⟩
    calling := act_call _
    rejects := fun i => act_rejects
    takes := fun i => history_takes
    in_order := hpast.in_order
    result_iff := hpast.result_iff
    exits := fun i a r => ⟨Exit.history_eq, Exit.of_history⟩
    finishes := fun hended later hlater => by
      have hreleased := hpast.released hs hended hlater
      exact ⟨(ledger_after hs hpast later).lowered_of_released hreleased, hreleased⟩
    releases := hs.act_releases }

/-- Two calls, a stop, and the first call as far as its return. -/
theorem engine_ownership_of_two_calls :
    let acts : List Act := [.call .run ⟨#[some .read]⟩, .call .spawn ⟨#[]⟩, .advance 0, .advance 1,
      .advance 0, .advance 0, .advance 0, .stop, .advance 0, .advance 0, .advance 0]
    let fresh : System := ⟨⟨1, .empty, false, false⟩, #[]⟩
    System.new 1 = .ok fresh ∧
      fresh.history acts = [.took 0, .rejected 1, .emptied 0, .raised 0, .stopped,
        .ended 0 (.done ⟨#[], .cancelled, ⟨#[0], 0⟩⟩), .lowered 0, .released 0] ∧
      (fresh.after acts).Governed (fresh.history acts) :=
  ⟨rfl, by decide, engine_ownership (show System.new 1 = .ok _ from rfl) _⟩

end Brainfuck.System
