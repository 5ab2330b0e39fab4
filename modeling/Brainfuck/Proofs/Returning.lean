import Brainfuck.Proofs.Refinement

/-!
# When a run returns

On an endless schedule on which a call goes on again and again and that does not disturb it, whoever
else acts meanwhile and whatever bytes are pushed, the call returns exactly the results that its
machine comes to (`Begun.returns_iff`): if it has returned, its worker was at a state in which the
sequential machine ends so, and once the worker is at such a state, the call returns after a bounded
number of its own acts (`Ending`).
-/

namespace Brainfuck

namespace Stage

variable {r r' : Result} {flags flags' : Nat}

theorem closing_inj (h : closing r flags = closing r' flags') : r = r' := by
  obtain _ | _ | _ := flags <;> obtain _ | _ | _ := flags' <;> cases h <;> rfl

/-- A call whose run is over is not at a stage before that. -/
theorem closing_ne (r : Result) (flags : Nat) : closing r flags ≠ .cleared ∧
    closing r flags ≠ .launching ∧ ∀ w, closing r flags ≠ .active w := by
  obtain _ | _ | _ := flags <;> exact ⟨nofun, nofun, nofun⟩

end Stage

/-- An act that does not disturb a call without a worker does not end its run. -/
theorem Call.Sees.not_closing_of_early {index flags : Nat} {c : Call} {e e' : Engine} {a : Act}
    {origin : Machine} {r : Result} (hearly : c.stage = .cleared ∨ c.stage = .launching)
    (hstart : Machine.start e.memory = .ok origin) (ha : ¬ a.Disturbs index) :
    ¬ c.Sees index e a e' (.closing r flags) := by
  intro sees
  obtain ⟨hcleared, hlaunching, hactive⟩ := Stage.closing_ne r flags
  have hstays : c.stage ≠ .closing r flags := by
    rcases hearly with hstage | hstage <;> rw [hstage]
    · exact hcleared.symm
    · exact hlaunching.symm
  generalize hstage : Stage.closing r flags = stage at sees
  cases sees with
  | moves own move =>
    rcases hearly with hbefore | hbefore
    · rw [hbefore] at move
      cases move
      exact hlaunching hstage
    · rw [hbefore] at move
      cases move with
      | starts => exact hactive _ hstage
      | falters worker =>
        unfold Worker.launch at worker
        rw [hstart] at worker
        cases worker
  | breaks own => exact ha (.inr own)
  | pushes | stops | others => exact hstays hstage.symm

theorem Phase.distance_pos (phase : Phase) : 0 < phase.distance := by
  cases phase <;> decide

namespace System

variable {memory index distance left : Nat} {program : Program} {origin : Machine}
  {stream : List UInt8} {done : List Completion} {t : Sequential} {r : Result} {s : System} {a : Act}
  {acts : List Act} {sched : Nat → Act}

theorem Carries.distance_pos (h : s.Carries program index t distance) : 0 < distance := by
  obtain ⟨c, w, -, -, -, -, -, rfl⟩ := h.call
  exact w.phase.distance_pos

theorem Carries.inBounds (h : s.Carries program index t distance) : t.machine.tape.InBounds := by
  obtain ⟨c, w, -, -, -, hw, rfl, -⟩ := h.call
  exact hw.inBounds

theorem Carries.not_closing (h : s.Carries program index t distance) {flags : Nat} :
    s.stage? index ≠ some (.closing r flags) := by
  obtain ⟨c, w, hc, hstage, -⟩ := h.call
  rw [stage?_of_call hc, hstage]
  intro hclosing
  exact (Stage.closing_ne r flags).2.2 w (Option.some.inj hclosing).symm

/-- An act of somebody else does no more to a run that goes on than push bytes. -/
theorem Carries.act_other (hs : s.Exclusive) (h : s.Carries program index t distance)
    (ha : ¬ a.Disturbs index) (hother : a ≠ .advance index) :
    (s.act a).1.Carries program index (t.feed a.pushed) distance := by
  obtain ⟨hrunning, c, w, hc, hstage, hprogram, hw, rfl, hdistance⟩ := h
  obtain ⟨stage, hc', sees⟩ := (s.acts a).sees hs hc
  generalize (s.act a).1 = s' at hc' sees
  obtain ⟨e', calls'⟩ := s'
  cases sees with
  | moves own => exact absurd own hother
  | breaks own => exact absurd (.inr own) ha
  | stops other => exact absurd (.inl other) ha
  | pushes other =>
    subst other
    exact ⟨hrunning, _, w, hc', hstage, hprogram, hw, rfl, hdistance⟩
  | others own quiet kept =>
    have hkept : e' = s.engine := kept (by rw [hstage]; rfl)
    subst hkept
    rw [Act.pushed_eq_nil quiet, Sequential.feed, List.append_nil]
    exact ⟨hrunning, _, w, hc', hstage, hprogram, hw, rfl, hdistance⟩

/-- The run of a call has come to its end with the result, and the call has so many acts before it at
most until it returns. -/
def Ending (program : Program) (index : Nat) (r : Result) (left : Nat) (s : System) : Prop :=
  (∃ t distance, s.Carries program index t distance ∧ Sequential.Ends program t r ∧
    distance + 2 ≤ left) ∨
  ∃ flags, flags ≤ 2 ∧ flags ≤ left ∧ s.stage? index = some (.closing r flags)

namespace Ending

theorem act (hs : s.Exclusive) (h : s.Ending program index r left) (ha : ¬ a.Disturbs index) :
    (s.act a).1.Ending program index r (left - if a = .advance index then 1 else 0) := by
  rcases h with ⟨t, distance, hcarries, hends, hleft⟩ | ⟨flags, hflags, hleft, hstage⟩
  · by_cases hown : a = .advance index
    · have hpos := hcarries.distance_pos
      have proceeds := hcarries.advance
      rw [if_pos hown, hown]
      generalize s.completion? index (.advance index) = done at proceeds
      cases proceeds with
      | rests nearer carries =>
        -- at its end the machine does not wait for a byte, so the worker comes nearer
        have hnearer := nearer.resolve_left hends.step_ne_starved
        exact .inl ⟨t, _, carries, hends, by omega⟩
      | steps next => exact absurd next (hends.stuck _)
      | ends ends stage =>
        obtain rfl := hends.unique ends
        exact .inr ⟨2, Nat.le_refl 2, by omega, stage⟩
    · rw [if_neg hown]
      exact .inl ⟨_, distance, hcarries.act_other hs ha hown, hends.feed hcarries.inBounds _, hleft⟩
  · have hafter := closing_after hs hflags hstage [a]
    rw [after_cons, after_nil, List.count_singleton] at hafter
    refine .inr ⟨_, ?_, ?_, hafter⟩
    · omega
    · by_cases hown : a = .advance index <;> simp [hown] <;> omega

theorem after (hs : s.Exclusive) (h : s.Ending program index r left)
    (hacts : ∀ a ∈ acts, ¬ a.Disturbs index) :
    (s.after acts).Ending program index r (left - acts.count (.advance index)) := by
  induction acts generalizing s left with
  | nil => exact h
  | cons a acts ih =>
    have hnext := ih (hs.acts (s.acts a)) (h.act hs (hacts a (List.mem_cons_self ..)))
      fun a' ha' => hacts a' (List.mem_cons_of_mem _ ha')
    rw [Nat.sub_sub] at hnext
    rw [Act.count_advance_cons]
    exact hnext

theorem result?_eq (h : s.Ending program index r 0) : s.result? index = some r := by
  rcases h with ⟨t, distance, -, -, hleft⟩ | ⟨flags, -, hleft, hstage⟩
  · omega
  · obtain rfl : flags = 0 := by omega
    rw [System.result?_eq, hstage]
    rfl

end Ending

/-! ## On an endless schedule -/

theorem not_disturbs_upTo (undisturbed : ∀ time, ¬ (sched time).Disturbs index) (time : Nat) :
    ∀ a ∈ upTo sched time, ¬ a.Disturbs index := by
  intro a ha
  obtain ⟨i, -, rfl⟩ := List.mem_map.mp ha
  exact undisturbed i

/-- A run that has come to its end with a result returns it. -/
theorem Carries.returns (hpath : s.OnPath program origin index stream done)
    (fair : ∀ time, ∃ later, time ≤ later ∧ sched later = .advance index)
    (undisturbed : ∀ time, ¬ (sched time).Disturbs index) {time : Nat}
    (h : (s.after (upTo sched time)).Carries program index t distance)
    (hends : Sequential.Ends program t r) :
    ∃ later, (s.after (upTo sched later)).result? index = some r := by
  obtain ⟨more, hmore⟩ := exists_turns fair time (distance + 2)
  refine ⟨time + more, ?_⟩
  rw [upTo_add, after_append]
  have hending : (s.after (upTo sched time)).Ending program index r (distance + 2) :=
    .inl ⟨t, distance, h, hends, Nat.le_refl _⟩
  have hacts : ∀ a ∈ (List.range more).map fun i => sched (time + i), ¬ a.Disturbs index := by
    intro a ha
    obtain ⟨i, -, rfl⟩ := List.mem_map.mp ha
    exact undisturbed (time + i)
  have hafter := hending.after (hpath.after _).exclusive hacts
  rw [turns_eq_count] at hmore
  rw [Nat.sub_eq_zero_of_le hmore] at hafter
  exact hafter.result?_eq

/-- A run gets over only by coming to its end. -/
theorem OnPath.ends_of_act (h : s.OnPath program origin index stream done)
    (hs : s.Undisturbed index) (ha : ¬ a.Disturbs index) {flags : Nat}
    (hover : (s.act a).1.stage? index = some (.closing r flags)) :
    (∃ flags, s.stage? index = some (.closing r flags)) ∨
      ∃ t distance, s.Carries program index t distance ∧ Sequential.Ends program t r := by
  obtain ⟨c, hc, -, -⟩ := h.call
  by_cases hearly : c.stage = .cleared ∨ c.stage = .launching
  · -- a run without a worker gets one before it can be over
    obtain ⟨stage, hc', sees⟩ := (s.acts a).sees h.exclusive hc
    rw [stage?_of_call hc'] at hover
    obtain rfl : stage = .closing r flags := Option.some.inj hover
    exact absurd sees (Call.Sees.not_closing_of_early hearly h.start ha)
  · rw [not_or] at hearly
    rcases h.engaged_of_stage hs (stage?_of_call hc) hearly.1 hearly.2 with
      ⟨n, t, distance, -, hcarries⟩ | ⟨r', flags', hflags', hclosing⟩
    · refine .inr ⟨t, distance, hcarries, ?_⟩
      by_cases hown : a = .advance index
      · subst hown
        have proceeds := hcarries.advance
        generalize s.completion? index (.advance index) = done at proceeds
        cases proceeds with
        | rests _ carries | steps _ carries => exact absurd hover carries.not_closing
        | ends ends stage =>
          rw [hover] at stage
          have hclosing : Stage.closing r flags = .closing _ 2 := Option.some.inj stage
          obtain rfl := Stage.closing_inj hclosing
          exact ends
      · exact absurd hover (hcarries.act_other h.exclusive ha hown).not_closing
    · have hafter := closing_after h.exclusive hflags' hclosing [a]
      rw [after_cons, after_nil, hover] at hafter
      obtain rfl := Stage.closing_inj (Option.some.inj hafter)
      exact .inl ⟨flags', hclosing⟩

theorem OnPath.exists_end (h : s.OnPath program origin index stream done)
    (hs : s.Undisturbed index) (hopen : ∀ flags, s.stage? index ≠ some (.closing r flags))
    (undisturbed : ∀ time, ¬ (sched time).Disturbs index) {time flags : Nat}
    (hover : (s.after (upTo sched time)).stage? index = some (.closing r flags)) :
    ∃ earlier t distance, (s.after (upTo sched earlier)).Carries program index t distance ∧
      Sequential.Ends program t r := by
  induction time generalizing flags with
  | zero => exact absurd hover (hopen flags)
  | succ time ih =>
    rw [upTo_succ, after_append] at hover
    rcases (h.after (upTo sched time)).ends_of_act
      (h.undisturbed_after hs (not_disturbs_upTo undisturbed time)) (undisturbed time) hover with
      ⟨flags', hover'⟩ | ⟨t, distance, hcarries, hends⟩
    · exact ih hover'
    · exact ⟨time, t, distance, hcarries, hends⟩

/-- A call that goes on again and again and is not disturbed returns with a result exactly if its
worker comes to a state in which its program ends with that result. -/
theorem Begun.returns_iff (h : s.Begun memory program index)
    (fair : ∀ time, ∃ later, time ≤ later ∧ sched later = .advance index)
    (undisturbed : ∀ time, ¬ (sched time).Disturbs index) (r : Result) :
    (∃ time, (s.after (upTo sched time)).result? index = some r) ↔
      ∃ time t distance, (s.after (upTo sched time)).Carries program index t distance ∧
        Sequential.Ends program t r := by
  obtain ⟨origin, -, hpath⟩ := h.onPath
  constructor
  · rintro ⟨time, hr⟩
    refine hpath.exists_end h.undisturbed (fun flags hclosing => ?_) undisturbed
      ((hpath.after _).stage_of_result hr)
    rw [h.stage?_eq] at hclosing
    exact (Stage.closing_ne r flags).1 (Option.some.inj hclosing).symm
  · rintro ⟨time, t, distance, hcarries, hends⟩
    exact hcarries.returns hpath fair undisturbed hends

end System

end Brainfuck
