import Brainfuck.Proofs.Verdicts

/-!
# Runs that nobody stops

Two invocations of one program with the same settings, whose threads take turns in different ways and
whose input comes in different pieces, say and print the same and end with the same exit code, if
nobody stops them (`Process.Started.endsAlike`). If there is room for the cells, both runs are on the
path of one machine and end where that machine ends (`System.OnPath.agree`). If there is none, both
break off before their first operator (`Process.Started.breaks_off`).
-/

namespace Brainfuck

/-- Two undisturbed calls on the path of one machine, whose streams are beginnings of one input,
complete the same and return the same. -/
theorem System.OnPath.agree {program : Program} {origin : Machine} {index₁ index₂ : Nat}
    {stream₁ stream₂ input : List UInt8} {done₁ done₂ : List Completion} {s₁ s₂ : System}
    {r₁ r₂ : Result} (h₁ : s₁.OnPath program origin index₁ stream₁ done₁)
    (h₂ : s₂.OnPath program origin index₂ stream₂ done₂) (hu₁ : s₁.Undisturbed index₁)
    (hu₂ : s₂.Undisturbed index₂) (hinput₁ : stream₁ <+: input) (hinput₂ : stream₂ <+: input)
    (hr₁ : s₁.result? index₁ = some r₁) (hr₂ : s₂.result? index₂ = some r₂) :
    done₁ = done₂ ∧ r₁ = r₂ := by
  have hbounds : origin.tape.InBounds := Machine.start_inBounds h₁.start
  obtain ⟨n₁, t₁, path₁, ends₁⟩ := h₁.ends_of_closing hu₁ (h₁.stage_of_result hr₁)
  obtain ⟨n₂, t₂, path₂, ends₂⟩ := h₂.ends_of_closing hu₂ (h₂.stage_of_result hr₂)
  obtain ⟨more₁, rfl⟩ := hinput₁
  obtain ⟨more₂, hmore₂⟩ := hinput₂
  -- both paths go on with the rest of the input behind what has been passed on
  have ends₁' := ends₁.feed (path₁.inBounds hbounds) more₁
  have ends₂' := ends₂.feed (path₂.inBounds hbounds) more₂
  have path₁' : Sequential.Path program n₁ ⟨origin, stream₁ ++ more₁⟩ done₁ (t₁.feed more₁) :=
    path₁.feed more₁ hbounds
  have path₂' : Sequential.Path program n₂ ⟨origin, stream₂ ++ more₂⟩ done₂ (t₂.feed more₂) :=
    path₂.feed more₂ hbounds
  rw [hmore₂] at path₂'
  obtain ⟨-, hdone, hsame⟩ := path₁'.eq_of_stuck ends₁'.stuck path₂' ends₂'.stuck
  rw [hsame] at ends₁'
  exact ⟨hdone, ends₁'.unique ends₂'⟩

namespace CommandLine.Process

variable {p : Process} {moves : List Move}

/-- The engine when the run is about to be carried out. -/
theorem Started.system_eq (h : p.Started) : p.system =
    ⟨⟨p.settings.memorySize, .empty, true, true⟩,
      #[⟨.spawn, .ofString p.source, .launching⟩]⟩ := by
  obtain ⟨fresh, hfresh, hsystem⟩ := h.system
  obtain ⟨-, rfl⟩ := System.new_eq_ok hfresh
  rw [hsystem]
  rfl

theorem Started.undisturbed (h : p.Started) : p.system.Undisturbed 0 := by
  intro stage hstage
  rw [h.system_eq] at hstage ⊢
  cases hstage
  rfl

theorem Started.memory_run (h : p.Started) (moves : List Move) :
    (p.run moves).1.system.engine.memory = p.settings.memorySize := by
  rw [system_run, System.memory_after, h.system_eq]

/-- Nobody stops the run, and it is not refused its thread. -/
structure Unstopped (p : Process) (moves : List Move) : Prop where
  stops : .stop ∉ p.acts moves
  refuses : ∀ reason, .refuse reason ∉ moves

theorem Unstopped.of_snoc {m : Move} (h : p.Unstopped (moves ++ [m])) : p.Unstopped moves := by
  refine ⟨fun hstop => h.stops ?_, fun reason hmem => h.refuses reason ?_⟩
  · rw [acts_append]
    exact List.mem_append_left _ hstop
  · exact List.mem_append_left _ hmem

/-- The acts of an unstopped run: its own, and those that pass on input. -/
theorem Unstopped.act_cases {m : Move} {a : Act} (h : p.Unstopped (moves ++ [m]))
    (hact : (p.run moves).1.act? m = some a) :
    a = (p.run moves).1.system.nextAct 0 ∨ ∃ bytes, a = .push bytes := by
  have hne : a ≠ .stop := by
    rintro rfl
    refine h.stops ?_
    rw [acts_append, List.mem_append]
    exact .inr (by simp [acts, hact])
  cases m with
  | work => exact .inl (Option.some.inj hact).symm
  | refuse reason => exact absurd (List.mem_append_right _ List.mem_cons_self) (h.refuses reason)
  | input bytes => exact .inr ⟨bytes, (Option.some.inj hact).symm⟩
  | interrupt => exact absurd (Option.some.inj hact).symm hne
  | stopForTimeout =>
    simp only [act?] at hact
    split at hact <;> cases hact
    exact absurd rfl hne
  | note | expire | join | conclude => cases hact

/-! ## With room for the cells -/

theorem lt_of_lacksRoom {s : System} {index : Nat} (h : s.lacksRoom index = true) :
    Tape.mostCells < s.engine.memory := by
  unfold System.lacksRoom at h
  cases hc : s.calls[index]? with
  | none => simp [hc] at h
  | some c =>
    rw [hc, Option.any_some] at h
    unfold Call.lacksRoom at h
    split at h
    · exact of_decide_eq_true h
    · cases h

theorem Started.nextAct_run (h : p.Started) (hroom : p.settings.memorySize ≤ Tape.mostCells)
    (moves : List Move) : (p.run moves).1.system.nextAct 0 = .advance 0 := by
  refine if_neg fun hlacks => ?_
  have hlt := lt_of_lacksRoom hlacks
  rw [h.memory_run] at hlt
  omega

theorem Unstopped.not_disturbs (h : p.Started) (hroom : p.settings.memorySize ≤ Tape.mostCells)
    (hmoves : p.Unstopped moves) : ∀ a ∈ p.acts moves, ¬ a.Disturbs 0 := by
  induction moves using List.reverseRecOn with
  | nil => intro a ha; cases ha
  | append_singleton moves m ih =>
    intro a ha
    rw [acts_append, List.mem_append] at ha
    rcases ha with ha | ha
    · exact ih hmoves.of_snoc a ha
    · simp only [acts, List.append_nil, Option.mem_toList] at ha
      rcases hmoves.act_cases ha with rfl | ⟨bytes, rfl⟩
      · rw [h.nextAct_run hroom]
        exact Act.not_disturbs (.inl rfl)
      · exact Act.not_disturbs (i := 0) (.inr ⟨bytes, rfl⟩)

/-! ## Without room for the cells -/

/-- The run is about to be carried out, or over because it has broken off. -/
def BreaksOff (s : System) : Prop :=
  s.stage? 0 = some .launching ∨ ∃ flags, flags ≤ 2 ∧ s.stage? 0 = some (.closing .crashed flags)

/-- After what the call does next it is on its way back. -/
theorem BreaksOff.breaks {s : System} (h : BreaksOff s) (hexclusive : s.Exclusive)
    (hroom : Tape.mostCells < s.engine.memory) :
    ∃ flags, flags ≤ 2 ∧ (s.act (s.nextAct 0)).1.stage? 0 = some (.closing .crashed flags) := by
  rcases h with hstage | ⟨flags, hflags, hstage⟩
  · obtain ⟨c, hc, hlaunching⟩ := System.exists_call_of_stage? hstage
    have hlacks : s.lacksRoom 0 = true := by
      simp [System.lacksRoom, hc, Call.lacksRoom, hlaunching, hroom]
    rw [System.nextAct, if_pos hlacks]
    refine ⟨2, Nat.le_refl 2, ?_⟩
    simp [System.act, System.stage?, Array.getElem?_modify, hc, Call.crash, hlaunching,
      Stage.closing]
  · exact ⟨_, Nat.le_trans (Nat.sub_le ..) hflags,
      System.closing_after hexclusive hflags hstage [s.nextAct 0]⟩

theorem BreaksOff.act {s : System} (h : BreaksOff s) (hexclusive : s.Exclusive)
    (hroom : Tape.mostCells < s.engine.memory) {a : Act}
    (ha : a = s.nextAct 0 ∨ ∃ bytes, a = .push bytes) :
    BreaksOff (s.act a).1 ∧ s.completion? 0 a = none := by
  rcases ha with rfl | ⟨bytes, rfl⟩
  · refine ⟨.inr (h.breaks hexclusive hroom), ?_⟩
    rcases h with hstage | ⟨flags, -, hstage⟩
    · rw [System.completion?, hstage]
      split <;> rfl
    · rw [System.completion?, hstage]
      obtain _ | _ | _ := flags <;> split <;> rfl
  · exact ⟨h, rfl⟩

theorem Started.breaks_off (h : p.Started) (hroom : Tape.mostCells < p.settings.memorySize)
    (hmoves : p.Unstopped moves) :
    BreaksOff (p.run moves).1.system ∧ p.system.completions 0 (p.acts moves) = [] := by
  induction moves using List.reverseRecOn with
  | nil =>
    refine ⟨.inl ?_, rfl⟩
    show p.system.stage? 0 = _
    rw [h.system_eq]
    rfl
  | append_singleton moves m ih =>
    obtain ⟨hbreaks, hdone⟩ := ih hmoves.of_snoc
    obtain ⟨origin, -, hpath⟩ := h.onPath_run moves
    rw [acts_append, System.completions_append, hdone, ← system_run, run_snoc, system_step]
    cases hact : (p.run moves).1.act? m with
    | none => exact ⟨hbreaks, by simp [acts, hact, System.completions]⟩
    | some a =>
      obtain ⟨hbreaks', hnone⟩ := hbreaks.act hpath.exclusive (h.memory_run moves ▸ hroom)
        (hmoves.act_cases hact)
      exact ⟨hbreaks', by simp [acts, hact, System.completions, hnone]⟩

theorem BreaksOff.eq_crashed {s : System} (h : BreaksOff s) {r : Result}
    (hr : s.result? 0 = some r) : r = .crashed := by
  rw [System.result?_eq] at hr
  rcases h with hstage | ⟨flags, hflags, hstage⟩
  · rw [hstage] at hr
    cases hr
  · rw [hstage] at hr
    obtain _ | _ | _ := flags <;> cases hr
    rfl

/-! ## Two runs -/

/-- The result is not that of a stop. -/
def Unforced (r : Result) : Prop :=
  r.IsOwn ∨ r = .crashed

theorem Started.unstopped_agree (h : p.Started) {xs ys : List Move} {input : List UInt8}
    (hxs : p.Unstopped xs) (hys : p.Unstopped ys) (hinput₁ : xs.flatMap Move.passed <+: input)
    (hinput₂ : ys.flatMap Move.passed <+: input) {r₁ r₂ : Result}
    (hr₁ : (p.run xs).1.system.result? 0 = some r₁)
    (hr₂ : (p.run ys).1.system.result? 0 = some r₂) :
    r₁ = r₂ ∧ Unforced r₁ ∧ p.printed xs = p.printed ys := by
  rcases Nat.lt_or_ge Tape.mostCells p.settings.memorySize with hroom | hroom
  · obtain ⟨hbreaks₁, hdone₁⟩ := h.breaks_off hroom hxs
    obtain ⟨hbreaks₂, hdone₂⟩ := h.breaks_off hroom hys
    obtain rfl := hbreaks₁.eq_crashed hr₁
    obtain rfl := hbreaks₂.eq_crashed hr₂
    exact ⟨rfl, .inr rfl, by rw [printed, printed, hdone₁, hdone₂]⟩
  · obtain ⟨origin, hstart, hpath⟩ := h.onPath
    have hpath₁ := hpath.after (p.acts xs)
    have hpath₂ := hpath.after (p.acts ys)
    have hu₁ := hpath.undisturbed_after h.undisturbed (hxs.not_disturbs h hroom)
    have hu₂ := hpath.undisturbed_after h.undisturbed (hys.not_disturbs h hroom)
    rw [List.nil_append, List.nil_append, ← system_run, pushed_acts] at hpath₁ hpath₂
    rw [← system_run] at hu₁ hu₂
    obtain ⟨hdone, rfl⟩ := hpath₁.agree hpath₂ hu₁ hu₂ hinput₁ hinput₂ hr₁ hr₂
    exact ⟨rfl, .inl (hu₁ _ (hpath₁.stage_of_result hr₁)), by rw [printed, printed, hdone]⟩

/-- The verdict on a run that was not stopped does not depend on the time. -/
theorem verdict_run_of_unforced (p : Process) (moves : List Move) {r : Result} (h : Unforced r) :
    (p.run moves).1.verdict r = p.verdict r := by
  obtain ⟨system, timedOut, stage, hsame⟩ := p.run_keeps moves
  rw [hsame]
  cases r with
  | done o =>
    have hcompleted : o.termination = .completed := h.resolve_right nofun
    rw [verdict_of_completed _ hcompleted, verdict_of_completed _ hcompleted]
  | failed cause => cases cause <;> rfl
  | crashed => rfl

/-- What an invocation leaves behind whose run was not stopped follows from the result and from what
the program has printed. -/
theorem Started.leaves_behind (h : p.Started) {exit : Nat}
    (hover : (p.run moves).1.stage = .over exit) :
    ∃ r, (p.run moves).1.system.result? 0 = some r ∧
      stdoutOf (p.run moves).2 = p.printed moves ++ lineEnd r ∧
      (Unforced r → exit = (p.verdict r).1 ∧
        complaintsOf (p.run moves).2 = complaintsOf (p.verdict r).2) := by
  have standing := h.standing moves
  rw [hover] at standing
  generalize hout : stdoutOf (p.run moves).2 = out at standing
  cases standing with
  | @concluded r before later result =>
    refine ⟨r, result, rfl, fun hforced => ?_⟩
    obtain ⟨looked, rest, -, -, -, hexit, htexts⟩ := h.judged result hover
    rw [verdict_run_of_unforced p looked hforced] at hexit htexts
    exact ⟨hexit, htexts⟩

/-- If nobody stops the run and its input comes from the same bytes, how far they may have been passed
on, the invocation ends with the same exit code, has printed the same and has said the same, in
whatever order its threads have moved. -/
def EndsAlike (p : Process) : Prop :=
  ∀ ⦃xs ys : List Move⦄ ⦃input : List UInt8⦄ ⦃exit₁ exit₂ : Nat⦄, p.Unstopped xs → p.Unstopped ys →
    xs.flatMap Move.passed <+: input → ys.flatMap Move.passed <+: input →
    (p.run xs).1.stage = .over exit₁ → (p.run ys).1.stage = .over exit₂ →
    exit₁ = exit₂ ∧ stdoutOf (p.run xs).2 = stdoutOf (p.run ys).2 ∧
      complaintsOf (p.run xs).2 = complaintsOf (p.run ys).2

theorem Started.endsAlike (h : p.Started) : p.EndsAlike := by
  intro xs ys input exit₁ exit₂ hxs hys hinput₁ hinput₂ hover₁ hover₂
  obtain ⟨r₁, hr₁, hout₁, hsaid₁⟩ := h.leaves_behind hover₁
  obtain ⟨r₂, hr₂, hout₂, hsaid₂⟩ := h.leaves_behind hover₂
  obtain ⟨rfl, hforced, hprinted⟩ := h.unstopped_agree hxs hys hinput₁ hinput₂ hr₁ hr₂
  obtain ⟨hexit₁, htexts₁⟩ := hsaid₁ hforced
  obtain ⟨hexit₂, htexts₂⟩ := hsaid₂ hforced
  exact ⟨hexit₁.trans hexit₂.symm, by rw [hout₁, hout₂, hprinted], htexts₁.trans htexts₂.symm⟩

end CommandLine.Process

end Brainfuck
