import Brainfuck.Proofs.Arrival

/-!
# A run that is let go on

A run that nobody asks to stop gets somewhere: after finitely many of its own acts its sequential
machine has taken its next step, or the run is over, unless it is at a `,` and there is no byte
(`Carries.reaches_next`, `Carries.reaches_end`). `Phase.distance` bounds how many acts that takes.
By induction on a path the run gets to every state that its sequential machine gets to
(`Carries.follows`).
-/

namespace Brainfuck.System

variable {program : Program} {index distance : Nat} {t u : Sequential} {s : System}

/-- The acts of a call that goes on so often. -/
def goOn (index : Nat) (often : Nat) : List Act :=
  List.replicate often (.advance index)

@[simp] theorem goOn_zero (index : Nat) : goOn index 0 = [] := rfl

theorem goOn_succ (index often : Nat) :
    goOn index (often + 1) = .advance index :: goOn index often := rfl

theorem goOn_add (index m n : Nat) : goOn index (m + n) = goOn index m ++ goOn index n :=
  List.replicate_append_replicate.symm

@[simp] theorem pushed_goOn (index often : Nat) : pushed (goOn index often) = [] := by
  induction often with
  | zero => rfl
  | succ often ih => exact ih

/-- Call number `index` carries out the program and may go on; its sequential machine is in state
`t`, and its phase has this distance from the next step. -/
structure Carries (program : Program) (index : Nat) (t : Sequential) (distance : Nat) (s : System) :
    Prop where
  running : s.engine.running = true
  call : ∃ c w, s.calls[index]? = some c ∧ c.stage = .active w ∧ w.program = program ∧ w.Sound ∧
    w.sequential s.engine.queue = t ∧ w.phase.distance = distance

/-- What the next act of a run does that carries out the program. -/
inductive Proceeds (program : Program) (index : Nat) (t : Sequential) (distance : Nat)
    (s' : System) : Option Completion → Prop where
  | rests {distance' : Nat} (nearer : t.step program = .starved ∨ distance' < distance)
      (carries : s'.Carries program index t distance') : Proceeds program index t distance s' none
  | steps {u : Sequential} {distance' : Nat} (next : t.step program = .next u)
      (carries : s'.Carries program index u distance') :
      Proceeds program index t distance s' (Sequential.completion? program t u)
  | ends {r : Result} (ends : Sequential.Ends program t r)
      (stage : s'.stage? index = some (.lowering r)) : Proceeds program index t distance s' none

theorem Carries.advance (h : s.Carries program index t distance) :
    Proceeds program index t distance (s.act (.advance index)).1
      (s.completion? index (.advance index)) := by
  obtain ⟨c, w, hc, hstage, rfl, hw, rfl, rfl⟩ := h.call
  have hlt := (Array.getElem?_eq_some_iff.mp hc).1
  obtain ⟨manner, program, _⟩ := c
  subst hstage
  have effect : w.Effect s.engine.running s.engine.queue _ _ := Worker.advance_effect hw
  have hdone : s.completion? index (.advance index) =
      w.completion? s.engine.running s.engine.queue := by
    simp [completion?, stage?_of_call hc, Stage.completion?]
  rw [act_advance hc, hdone, Call.advance]
  generalize w.advance s.engine.running s.engine.queue = moved at effect
  generalize w.completion? s.engine.running s.engine.queue = done at effect
  -- where the worker goes on, the call stays in its place with the new worker
  have carries : ∀ {w' : Worker} {queue : ByteQueue} (_ : w'.program = w.program) (_ : w'.Sound),
      (⟨{ s.engine with queue }, s.calls.setIfInBounds index ⟨manner, program, .active w'⟩⟩ :
        System).Carries w.program index (w'.sequential queue) w'.phase.distance := by
    intro w' queue hprogram sound
    exact ⟨h.running, ⟨manner, program, .active w'⟩, w', by simp [hlt], rfl, hprogram, sound, rfl,
      rfl⟩
  have lowers : ∀ {queue : ByteQueue} {r : Result},
      (⟨{ s.engine with queue }, s.calls.setIfInBounds index ⟨manner, program, .lowering r⟩⟩ :
        System).stage? index = some (.lowering r) := by
    intro queue r
    rw [stage?_set hc, if_pos rfl]
  cases effect with
  | @rests w' _ hprogram hmachine sound nearer =>
    have hsame : w'.sequential s.engine.queue = w.sequential s.engine.queue := by
      simp [Worker.sequential, hmachine]
    exact .rests nearer (hsame ▸ carries hprogram sound)
  | steps hprogram sound next => exact .steps next (carries hprogram sound)
  | ends finish =>
    exact .ends (.of_size_le (s := w.sequential s.engine.queue) (finish h.running) hw.inBounds)
      lowers
  | fails failed => exact .ends (.failed failed) lowers

/-- A call that has emptied the queue carries out its program two acts later. -/
theorem Begun.launches {memory : Nat} {origin : Machine} (h : Begun memory program index s)
    (hstart : Machine.start memory = .ok origin) (stream : List UInt8) :
    (∃ distance, (s.after (.push stream :: goOn index 2)).Carries program index ⟨origin, stream⟩
      distance) ∧ s.completions index (.push stream :: goOn index 2) = [] := by
  have hqueue := h.queue_eq
  obtain ⟨c, hc, rfl, hcleared⟩ := h.exists_call
  obtain ⟨origin', hstart', hpath⟩ := h.onPath
  cases hstart.symm.trans hstart'
  have hlt := (Array.getElem?_eq_some_iff.mp hc).1
  obtain ⟨manner, program, _⟩ := c
  subst hcleared
  have hlaunch : Worker.launch program s.engine.memory = .ok ⟨program, origin, false, .ready⟩ := by
    rw [Worker.launch, hpath.start]
  have hraised : ((s.act (.push stream)).1.act (.advance index)).1 =
      ⟨{ s.engine.push stream with running := true },
        s.calls.setIfInBounds index ⟨manner, program, .launching⟩⟩ :=
    act_advance (s := (s.act (.push stream)).1) hc
  have hcall : ((s.act (.push stream)).1.act (.advance index)).1.calls[index]? =
      some ⟨manner, program, .launching⟩ := by
    rw [hraised]
    simp [hlt]
  have hstarted : s.after (.push stream :: goOn index 2) =
      ⟨{ s.engine.push stream with running := true },
        s.calls.setIfInBounds index
          ⟨manner, program, .active ⟨program, origin, false, .ready⟩⟩⟩ := by
    refine (act_advance hcall).trans ?_
    rw [hraised]
    simp [Call.advance, Engine.push, hlaunch]
  constructor
  · refine ⟨2, ?_⟩
    rw [hstarted]
    exact ⟨rfl, ⟨manner, program, .active ⟨program, origin, false, .ready⟩⟩,
      ⟨program, origin, false, .ready⟩, by simp [hlt], rfl, rfl,
      Worker.sound_of_ready (Machine.start_inBounds hstart),
      by simp [Worker.sequential, Engine.push, hqueue], rfl⟩
  · have hstage : (s.act (.push stream)).1.stage? index = some .cleared := stage?_of_call hc
    have hstage' := stage?_of_call hcall
    simp [completions, goOn_succ, completion?, hstage, hstage', Stage.completion?]

/-- The operators that a call completes when it goes on once and then some more. -/
theorem completions_goOn_succ (s : System) (index often : Nat) :
    s.completions index (goOn index (often + 1)) =
      (s.completion? index (.advance index)).toList ++
        (s.act (.advance index)).1.completions index (goOn index often) := rfl

theorem Carries.reaches_next (h : s.Carries program index t distance)
    (hnext : t.step program = .next u) :
    ∃ often distance', (s.after (goOn index often)).Carries program index u distance' ∧
      s.completions index (goOn index often) = (Sequential.completion? program t u).toList := by
  -- every rest brings the run nearer to its next step, since it does not starve
  induction distance using Nat.strongRecOn generalizing s with
  | ind distance ih =>
    have proceeds := h.advance
    generalize hdone : s.completion? index (.advance index) = done at proceeds
    cases proceeds with
    | @rests distance' nearer carries =>
      rcases nearer with hstarved | hlt
      · rw [hnext] at hstarved
        cases hstarved
      · obtain ⟨often, distance'', hcarries, hcompletions⟩ := ih distance' hlt carries
        refine ⟨often + 1, distance'', hcarries, ?_⟩
        rw [completions_goOn_succ, hdone, hcompletions, Option.toList_none, List.nil_append]
    | steps next carries =>
      rw [hnext] at next
      cases next
      refine ⟨1, _, carries, ?_⟩
      rw [completions_goOn_succ, hdone]
      exact List.append_nil _
    | ends ends => exact absurd hnext (ends.stuck u)

theorem Carries.reaches_end (h : s.Carries program index t distance) {r : Result}
    (hends : Sequential.Ends program t r) :
    ∃ often, (s.after (goOn index often)).stage? index = some (.lowering r) ∧
      s.completions index (goOn index often) = [] := by
  induction distance using Nat.strongRecOn generalizing s with
  | ind distance ih =>
    have proceeds := h.advance
    generalize hdone : s.completion? index (.advance index) = done at proceeds
    cases proceeds with
    | @rests distance' nearer carries =>
      rcases nearer with hstarved | hlt
      · exact absurd hstarved hends.step_ne_starved
      · obtain ⟨often, hstage, hcompletions⟩ := ih distance' hlt carries
        refine ⟨often + 1, hstage, ?_⟩
        rw [completions_goOn_succ, hdone, hcompletions]
        rfl
    | steps next => exact absurd next (hends.stuck _)
    | ends ends stage =>
      obtain rfl := hends.unique ends
      refine ⟨1, stage, ?_⟩
      rw [completions_goOn_succ, hdone]
      rfl

/-- A run at a `,` for which there is no byte stays there. -/
theorem Carries.starves (h : s.Carries program index t distance)
    (hstarved : t.step program = .starved) (often : Nat) :
    (∃ distance', (s.after (goOn index often)).Carries program index t distance') ∧
      s.completions index (goOn index often) = [] := by
  induction often generalizing s distance with
  | zero => exact ⟨⟨distance, h⟩, rfl⟩
  | succ often ih =>
    have proceeds := h.advance
    generalize hdone : s.completion? index (.advance index) = done at proceeds
    cases proceeds with
    | rests _ carries =>
      obtain ⟨hcarries, hcompletions⟩ := ih carries
      refine ⟨hcarries, ?_⟩
      rw [completions_goOn_succ, hdone, hcompletions]
      rfl
    | steps next => rw [hstarved] at next; cases next
    | ends ends => exact absurd hstarved ends.step_ne_starved

/-- A run gets wherever its sequential machine gets. -/
theorem Carries.follows {n : Nat} {done : List Completion}
    (path : Sequential.Path program n t done u) {s : System} {distance : Nat}
    (h : s.Carries program index t distance) :
    ∃ often distance', (s.after (goOn index often)).Carries program index u distance' ∧
      s.completions index (goOn index often) = done := by
  induction path generalizing s distance with
  | nil => exact ⟨0, distance, h, rfl⟩
  | cons first _ ih =>
    obtain ⟨often, distance', hcarries, hdone⟩ := h.reaches_next first
    obtain ⟨often', distance'', hcarries', hlater⟩ := ih hcarries
    refine ⟨often + often', distance'', ?_, ?_⟩
    · rw [goOn_add, after_append]
      exact hcarries'
    · rw [goOn_add, completions_append, hdone, hlater]

/-! ## Where a run gets in the end -/

variable {origin : Machine} {stream : List UInt8} {done : List Completion}

/-- The run of a call is on its path, or it is over. -/
def Engaged (program : Program) (origin : Machine) (index : Nat) (stream : List UInt8)
    (done : List Completion) (s : System) : Prop :=
  (∃ n t distance, Sequential.Path program n ⟨origin, stream⟩ done t ∧
    s.Carries program index t distance) ∨
  ∃ r flags, flags ≤ 2 ∧ s.stage? index = some (.closing r flags)

theorem OnPath.engaged_of_stage (h : s.OnPath program origin index stream done)
    (hs : s.Undisturbed index) {stage : Stage} (hstage : s.stage? index = some stage)
    (hcleared : stage ≠ .cleared) (hlaunching : stage ≠ .launching) :
    s.Engaged program origin index stream done := by
  have hfollows := h.follows hstage
  have hrunning := hs _ hstage
  cases stage with
  | active w =>
    obtain ⟨hprogram, hw, n, path⟩ := hfollows
    obtain ⟨c, hc, hkind⟩ := exists_call_of_stage? hstage
    exact .inl ⟨n, _, _, path, hrunning, c, w, hc, hkind, hprogram, hw, rfl, rfl⟩
  | lowering r => exact .inr ⟨r, 2, Nat.le_refl 2, hstage⟩
  | releasing r => exact .inr ⟨r, 1, by omega, hstage⟩
  | returned r => exact .inr ⟨r, 0, by omega, hstage⟩
  | cleared => exact absurd rfl hcleared
  | launching => exact absurd rfl hlaunching
  | requested | rejected | taken => cases hfollows

theorem OnPath.goOn (h : s.OnPath program origin index stream done) (often : Nat) :
    (s.after (goOn index often)).OnPath program origin index stream
      (done ++ s.completions index (System.goOn index often)) := by
  have hafter := h.after (System.goOn index often)
  rwa [pushed_goOn, List.append_nil] at hafter

theorem OnPath.undisturbed_goOn (h : s.OnPath program origin index stream done)
    (hs : s.Undisturbed index) (often : Nat) :
    (s.after (System.goOn index often)).Undisturbed index :=
  h.undisturbed_after hs fun _ ha => Act.not_disturbs (.inl (List.eq_of_mem_replicate ha))

/-- What the next act does to the stage of a run. -/
theorem OnPath.exists_move (h : s.OnPath program origin index stream done) {stage : Stage}
    (hstage : s.stage? index = some stage) :
    ∃ e' stage', stage.Moves program s.engine e' stage' ∧
      (s.act (.advance index)).1.stage? index = some stage' := by
  obtain ⟨c, hc, rfl, -⟩ := h.call
  obtain ⟨stage', hc', sees⟩ := (s.acts (.advance index)).sees h.exclusive hc
  obtain rfl : c.stage = stage := Option.some.inj ((stage?_of_call hc).symm.trans hstage)
  exact ⟨_, stage', sees.move, stage?_of_call hc'⟩

/-- After at most two acts a run is engaged. -/
theorem OnPath.engaged (h : s.OnPath program origin index stream done) (hs : s.Undisturbed index) :
    ∃ often, (s.after (System.goOn index often)).Engaged program origin index stream
      (done ++ s.completions index (System.goOn index often)) := by
  obtain ⟨c, hc, -, -⟩ := h.call
  have hstage := stage?_of_call hc
  have once := h.goOn 1
  have once' := h.undisturbed_goOn hs 1
  -- from `cleared` to `launching`, and from there to the worker
  by_cases hcleared : c.stage = .cleared
  · rw [hcleared] at hstage
    obtain ⟨e₁, stage₁, move₁, hstage₁⟩ := h.exists_move hstage
    cases move₁
    obtain ⟨e₂, stage₂, move₂, hstage₂⟩ := once.exists_move hstage₁
    refine ⟨2, (h.goOn 2).engaged_of_stage (h.undisturbed_goOn hs 2) hstage₂ ?_ ?_⟩ <;>
      cases move₂ <;> nofun
  · by_cases hlaunching : c.stage = .launching
    · rw [hlaunching] at hstage
      obtain ⟨e₁, stage₁, move₁, hstage₁⟩ := h.exists_move hstage
      refine ⟨1, once.engaged_of_stage once' hstage₁ ?_ ?_⟩ <;> cases move₁ <;> nofun
    · exact ⟨0, (h.goOn 0).engaged_of_stage hs hstage hcleared hlaunching⟩

/-- A run gets to every state that lies ahead on its path, unless it is over. -/
theorem Carries.reaches {n m : Nat} {all : List Completion}
    (h : s.Carries program index t distance)
    (here : Sequential.Path program n ⟨origin, stream⟩ done t)
    (path : Sequential.Path program m ⟨origin, stream⟩ all u) (hle : n ≤ m) :
    ∃ often distance', (s.after (System.goOn index often)).Carries program index u distance' ∧
      done ++ s.completions index (System.goOn index often) = all := by
  obtain ⟨later, rfl, ahead⟩ := here.split path hle
  obtain ⟨often, distance', hcarries, hlater⟩ := h.follows ahead
  exact ⟨often, distance', hcarries, by rw [hlater]⟩

section

variable {m : Nat} {all : List Completion} {r : Result}

/-- A run whose path ends with a result comes to its end. -/
theorem OnPath.closes (h : s.OnPath program origin index stream done) (hs : s.Undisturbed index)
    (path : Sequential.Path program m ⟨origin, stream⟩ all u)
    (ends : Sequential.Ends program u r) :
    ∃ often flags, flags ≤ 2 ∧
      (s.after (System.goOn index often)).stage? index = some (.closing r flags) := by
  obtain ⟨often, ⟨n, t, distance, here, hcarries⟩ | ⟨r', flags, hflags, hstage⟩⟩ := h.engaged hs
  · obtain ⟨often', distance', hcarries', -⟩ :=
      hcarries.reaches here path (path.le_of_stuck ends.stuck here)
    obtain ⟨often'', hstage, -⟩ := hcarries'.reaches_end ends
    refine ⟨often + often' + often'', 2, Nat.le_refl 2, ?_⟩
    rw [goOn_add, goOn_add, after_append, after_append]
    exact hstage
  · obtain ⟨n, t, here, ends'⟩ :=
      (h.goOn often).ends_of_closing (h.undisturbed_goOn hs often) hstage
    obtain ⟨-, -, rfl⟩ := path.eq_of_stuck ends.stuck here ends'.stuck
    obtain rfl := ends.unique ends'
    exact ⟨often, flags, hflags, hstage⟩

/-- A run whose path ends with a result returns it. -/
theorem OnPath.returns (h : s.OnPath program origin index stream done) (hs : s.Undisturbed index)
    (path : Sequential.Path program m ⟨origin, stream⟩ all u)
    (ends : Sequential.Ends program u r) :
    ∃ enough, ∀ often, enough ≤ often →
      (s.after (System.goOn index often)).result? index = some r ∧
        done ++ s.completions index (System.goOn index often) = all := by
  obtain ⟨often, flags, hflags, hstage⟩ := h.closes hs path ends
  refine ⟨often + 2, fun more hmore => ?_⟩
  have hreturned : (s.after (System.goOn index more)).stage? index = some (.closing r 0) := by
    have hafter := closing_after (h.goOn often).exclusive hflags hstage
      (System.goOn index (more - often))
    rw [← after_append, ← goOn_add, System.goOn, System.goOn, List.count_replicate_self,
      show often + (more - often) = more by omega, show flags - (more - often) = 0 by omega]
      at hafter
    exact hafter
  refine ⟨by rw [result?_eq, hreturned]; rfl, ?_⟩
  obtain ⟨n, t, here, ends'⟩ :=
    (h.goOn more).ends_of_closing (h.undisturbed_goOn hs more) hreturned
  exact (path.eq_of_stuck ends.stuck here ends'.stuck).2.1.symm

/-- A run whose path stops at a `,` without a byte stays there. -/
theorem OnPath.waits (h : s.OnPath program origin index stream done) (hs : s.Undisturbed index)
    (path : Sequential.Path program m ⟨origin, stream⟩ all u)
    (hstarved : u.step program = .starved) :
    ∃ enough, ∀ often, enough ≤ often →
      ∃ distance, (s.after (System.goOn index often)).Carries program index u distance := by
  have hstuck := Sequential.stuck_of_starved hstarved
  obtain ⟨often, ⟨n, t, distance, here, hcarries⟩ | ⟨r', flags, -, hstage⟩⟩ := h.engaged hs
  · obtain ⟨often', distance', hcarries', -⟩ :=
      hcarries.reaches here path (path.le_of_stuck hstuck here)
    refine ⟨often + often', fun more hmore => ?_⟩
    obtain ⟨hstays, -⟩ := hcarries'.starves hstarved (more - (often + often'))
    rw [← after_append, ← after_append, ← goOn_add, ← goOn_add,
      show often + (often' + (more - (often + often'))) = more by omega] at hstays
    exact hstays
  · obtain ⟨n, t, here, ends⟩ :=
      (h.goOn often).ends_of_closing (h.undisturbed_goOn hs often) hstage
    obtain ⟨-, -, rfl⟩ := path.eq_of_stuck hstuck here ends.stuck
    exact absurd hstarved ends.step_ne_starved

/-- A run whose path is endless completes any number of operators. -/
theorem OnPath.runs_on (h : s.OnPath program origin index stream done) (hs : s.Undisturbed index)
    (endless : ∀ n, ∃ all u, Sequential.Path program n ⟨origin, stream⟩ all u) (k : Nat) :
    ∃ often, k ≤ (done ++ s.completions index (System.goOn index often)).length := by
  have hbounds := Machine.start_inBounds h.start
  obtain ⟨often, ⟨n, t, distance, here, hcarries⟩ | ⟨r', flags, -, hstage⟩⟩ := h.engaged hs
  · obtain ⟨m, all, u, path, hk⟩ := Sequential.Path.exists_completions_of_endless endless hbounds k
    rcases Nat.le_total n m with hle | hle
    · obtain ⟨often', -, -, hall⟩ := hcarries.reaches here path hle
      refine ⟨often + often', ?_⟩
      rw [goOn_add, completions_append, ← List.append_assoc, hall]
      exact hk
    · obtain ⟨later, hall, -⟩ := path.split here hle
      refine ⟨often, ?_⟩
      rw [hall, List.length_append]
      omega
  · obtain ⟨n, t, here, ends⟩ :=
      (h.goOn often).ends_of_closing (h.undisturbed_goOn hs often) hstage
    obtain ⟨all, u, path⟩ := endless (n + 1)
    have hle := here.le_of_stuck ends.stuck path
    omega

end

end Brainfuck.System
