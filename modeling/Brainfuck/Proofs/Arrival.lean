import Brainfuck.Proofs.Delivery

/-!
# It does not matter when the input arrives

Two runs of a program that are given the same bytes, at whatever times and in whatever chunks, are
on the path of the same sequential machine (`Brainfuck.Proofs.Delivery`). So they complete the same
operators as far as they come, and if both return, they return the same result
(`System.arrival_irrelevant`). A run that has seen fewer bytes is on a beginning of the path of one
that has seen more.

For the results this takes that nobody disturbs the runs, by a stop or by breaking them off. Then
the running flag is up while the program is carried out, and the run ends where its sequential
machine does: `Stage.Undisturbed` is what such a schedule keeps.
-/

namespace Brainfuck

/-- A result that a run comes to when nobody disturbs it. -/
def Result.IsOwn : Result → Prop
  | .done o => o.termination = .completed
  | .failed (.noThread _) => False
  | .failed _ => True
  | .crashed => False

/-- The act asks for a stop, or breaks off call number `index`. -/
def Act.Disturbs (index : Nat) (a : Act) : Prop :=
  a = .stop ∨ a.BreaksOff index

instance (index : Nat) (a : Act) : Decidable (a.Disturbs index) :=
  match a with
  | .stop => isTrue (.inl rfl)
  | .crash i => decidable_of_iff (i = index)
      ⟨fun h => .inr (.inl (h ▸ rfl)), fun h => by rcases h with h | h | ⟨_, h⟩ <;> cases h; rfl⟩
  | .refuse i reason => decidable_of_iff (i = index)
      ⟨fun h => .inr (.inr ⟨reason, h ▸ rfl⟩),
        fun h => by rcases h with h | h | ⟨_, h⟩ <;> cases h; rfl⟩
  | .call _ _ | .advance _ | .push _ =>
    isFalse fun h => by rcases h with h | h | ⟨_, h⟩ <;> cases h

theorem Act.not_disturbs {index i : Nat} {a : Act} (h : a = .advance i ∨ ∃ bytes, a = .push bytes) :
    ¬ a.Disturbs index := by
  rintro (rfl | breaks)
  · simp at h
  · rcases h with rfl | ⟨bytes, rfl⟩
    · exact breaks.ne_advance i rfl
    · exact breaks.ne_push bytes rfl

/-- Nobody has disturbed a call that is at this stage. -/
def Stage.Undisturbed (e : Engine) : Stage → Prop
  | .launching | .active _ => e.running = true
  | .lowering r | .releasing r | .returned r => r.IsOwn
  | _ => True

theorem Machine.outcome_termination_iff (p : Program) (m : Machine) :
    (m.outcome p).termination = .completed ↔ p.size ≤ m.ip := by
  simp [outcome]

/-- An operator fails with a fault of its own. -/
theorem Machine.isOwn_of_perform {p : Program} {cell : UInt8} {m : Machine} {op : Op}
    {failure : Failure} (hop : p.op? m.ip = some op) (h : m.perform p cell op = .error failure) :
    (Result.ofFailure failure).IsOwn := by
  have hlt := Program.lt_size_of_op?_eq_some hop
  obtain ⟨tape, output, ip⟩ := m
  cases op with
  | right =>
    simp only [perform, Tape.moveRight] at h
    split at h <;> rename_i hmove <;> split at hmove <;> cases hmove <;> cases h
    trivial
  | left =>
    simp only [perform, Tape.moveLeft] at h
    split at h <;> rename_i hmove <;> split at hmove <;> cases hmove <;> cases h
    trivial
  | openLoop =>
    simp only [perform, Program.loopExit] at h
    split at h
    · split at h
      · cases h
      · next hexit =>
        cases h
        split at hexit <;> cases hexit
        trivial
    · cases h
  | closeLoop =>
    have hle : ¬ p.size < ip := Nat.not_lt.mpr (Nat.le_of_lt hlt)
    simp only [perform, Program.loopEntry, if_neg hle] at h
    split at h
    · cases h
    · split at h
      · cases h
      · next hentry =>
        cases h
        split at hentry <;> cases hentry
        trivial
  | increment | decrement | print | read => cases h

namespace Stage

variable {program : Program} {e e' : Engine} {stage stage' : Stage}

theorem Undisturbed.of_running (h : stage.Undisturbed e) (hrunning : e'.running = e.running) :
    stage.Undisturbed e' := by
  cases stage <;> simp_all [Undisturbed]

/-- A run that does not own the engine does not look at its flags. -/
theorem Undisturbed.of_not_owns (h : stage.Undisturbed e) (howns : ¬ stage.owns = true) :
    stage.Undisturbed e' := by
  cases stage with
  | requested | rejected => trivial
  | returned r => exact h
  | _ => exact absurd rfl howns

theorem Undisturbed.moves (hsound : ∀ w, stage = .active w → w.Sound) (h : stage.Undisturbed e)
    (move : stage.Moves program e e' stage') : stage'.Undisturbed e' := by
  cases move with
  | rejects | takes | clears | rejected => trivial
  | raises => rfl
  | starts => exact h
  | falters worker =>
    by_cases hmemory : e.memory = 0
    · simp only [Worker.launch, Machine.start, Tape.blank, if_pos hmemory] at worker
      cases worker
      trivial
    · simp [Worker.launch, Machine.start, Tape.blank, hmemory] at worker
  | works => exact h
  | lowers | releases | returned => exact h
  | @ends w r queue events moved =>
    have hw := hsound w rfl
    have effect := Worker.effect_of_eq hw moved
    generalize w.completion? e.running e.queue = done at effect
    cases effect with
    | ends finish =>
      -- the flag is up, so it is the end of the program
      exact (Machine.outcome_termination_iff _ _).mpr (finish h)
    | fails failed =>
      cases Sequential.does_of_step_eq failed hw.inBounds with
      | fails hop _ _ hfailure => exact Machine.isOwn_of_perform hop hfailure

end Stage

theorem Call.Sees.undisturbed {index : Nat} {c : Call} {e e' : Engine} {a : Act} {stage : Stage}
    (hsound : ∀ w, c.stage = .active w → w.Sound) (ha : ¬ a.Disturbs index)
    (h : c.stage.Undisturbed e) (sees : c.Sees index e a e' stage) : stage.Undisturbed e' := by
  cases sees with
  | moves own move => exact h.moves hsound move
  | breaks own => exact absurd (.inr own) ha
  | pushes => exact h.of_running rfl
  | stops other => exact absurd (.inl other) ha
  | others own quiet kept =>
    by_cases howns : c.stage.owns = true
    · rw [kept howns]
      exact h
    · exact h.of_not_owns howns

/-- A run that nobody has disturbed ends where its sequential machine does. -/
theorem Explains.ends {p : Program} {t : Sequential} {r : Result} (h : Explains p t r)
    (ht : t.machine.tape.InBounds) (hown : r.IsOwn) : Sequential.Ends p t r := by
  cases h with
  | done => exact .of_size_le ((Machine.outcome_termination_iff p t.machine).mp hown) ht
  | failed failed => exact .failed failed
  | refused | crashed => cases hown

namespace System

variable {memory index : Nat} {program : Program} {origin : Machine} {stream : List UInt8}
  {done : List Completion} {s : System}

/-- Nobody has disturbed call number `index`. -/
def Undisturbed (s : System) (index : Nat) : Prop :=
  ∀ stage, s.stage? index = some stage → stage.Undisturbed s.engine

theorem OnPath.sound (h : s.OnPath program origin index stream done) {w : Worker}
    (hw : s.stage? index = some (.active w)) : w.Sound :=
  (h.follows hw).2.1

theorem OnPath.undisturbed_act (h : s.OnPath program origin index stream done)
    (hs : s.Undisturbed index) {a : Act} (ha : ¬ a.Disturbs index) :
    (s.act a).1.Undisturbed index := by
  obtain ⟨c, hc, -, -⟩ := h.call
  obtain ⟨stage, hc', sees⟩ := (s.acts a).sees h.exclusive hc
  have hstage := stage?_of_call hc
  intro stage' hstage'
  cases hstage'.symm.trans (stage?_of_call hc')
  exact sees.undisturbed (fun w hw => h.sound (hw ▸ hstage)) ha (hs _ hstage)

theorem OnPath.undisturbed_after (h : s.OnPath program origin index stream done)
    (hs : s.Undisturbed index) {acts : List Act} (hacts : ∀ a ∈ acts, ¬ a.Disturbs index) :
    (s.after acts).Undisturbed index := by
  induction acts generalizing s stream done with
  | nil => exact hs
  | cons a acts ih =>
    have hnext := h.undisturbed_act hs (hacts a (List.mem_cons_self ..))
    exact ih (h.act a) hnext fun a' ha' => hacts a' (List.mem_cons_of_mem _ ha')

theorem Begun.undisturbed (h : Begun memory program index s) : s.Undisturbed index := by
  intro stage hstage
  cases hstage.symm.trans h.stage?_eq
  trivial

/-- The path of a run that is over, if nobody has disturbed it, ends where its result says. -/
theorem OnPath.ends_of_closing (h : s.OnPath program origin index stream done)
    (hs : s.Undisturbed index) {r : Result} {flags : Nat}
    (hstage : s.stage? index = some (.closing r flags)) :
    ∃ n t, Sequential.Path program n ⟨origin, stream⟩ done t ∧ Sequential.Ends program t r := by
  obtain ⟨n, t, path, explains⟩ := h.path_of_closing hstage
  have hown : r.IsOwn := by
    have hundisturbed := hs _ hstage
    obtain _ | _ | _ := flags
    all_goals exact hundisturbed
  exact ⟨n, t, path, explains.ends (path.inBounds (Machine.start_inBounds h.start)) hown⟩

/-- Two runs of a program, the bytes that are pushed to one a beginning of those that are pushed to
the other, complete the same operators as far as they come. If both return, they return the same
result and have taken the same bytes. -/
theorem arrival_irrelevant {index₁ index₂ : Nat} {s₁ s₂ : System}
    (h₁ : s₁.Begun memory program index₁) (h₂ : s₂.Begun memory program index₂)
    {acts₁ acts₂ : List Act} (hacts₁ : ∀ a ∈ acts₁, ¬ a.Disturbs index₁)
    (hacts₂ : ∀ a ∈ acts₂, ¬ a.Disturbs index₂) (hpushed : pushed acts₁ <+: pushed acts₂) :
    (s₁.completions index₁ acts₁ <+: s₂.completions index₂ acts₂ ∨
      s₂.completions index₂ acts₂ <+: s₁.completions index₁ acts₁) ∧
    ∀ r₁ r₂, (s₁.after acts₁).result? index₁ = some r₁ →
      (s₂.after acts₂).result? index₂ = some r₂ →
      r₁ = r₂ ∧ s₁.popped index₁ acts₁ = s₂.popped index₂ acts₂ := by
  obtain ⟨origin, hstart, hpath₁⟩ := h₁.onPath
  obtain ⟨origin', hstart', hpath₂⟩ := h₂.onPath
  cases hstart.symm.trans hstart'
  have hbounds : origin.tape.InBounds := Machine.start_inBounds hstart
  obtain ⟨more, hmore⟩ := hpushed
  have hafter₁ := hpath₁.after acts₁
  have hafter₂ := hpath₂.after acts₂
  rw [List.nil_append, List.nil_append] at hafter₁ hafter₂
  -- the path of the first run, with the bytes that only the second was given behind its input
  have hfeed : ∀ {n t}, Sequential.Path program n ⟨origin, pushed acts₁⟩
      (s₁.completions index₁ acts₁) t → Sequential.Path program n ⟨origin, pushed acts₂⟩
      (s₁.completions index₁ acts₁) (t.feed more) := by
    intro n t path
    have hpath := path.feed more hbounds
    rwa [Sequential.feed, hmore] at hpath
  constructor
  · obtain ⟨c₁, -, -, hfollows₁⟩ := hafter₁.call
    obtain ⟨c₂, -, -, hfollows₂⟩ := hafter₂.call
    obtain ⟨n₁, t₁, path₁⟩ := hfollows₁.path
    obtain ⟨n₂, t₂, path₂⟩ := hfollows₂.path
    exact (hfeed path₁).comparable path₂
  · intro r₁ r₂ hr₁ hr₂
    obtain ⟨n₁, t₁, path₁, ends₁⟩ := hafter₁.ends_of_closing
      (hpath₁.undisturbed_after h₁.undisturbed hacts₁) (hafter₁.stage_of_result hr₁)
    obtain ⟨n₂, t₂, path₂, ends₂⟩ := hafter₂.ends_of_closing
      (hpath₂.undisturbed_after h₂.undisturbed hacts₂) (hafter₂.stage_of_result hr₂)
    have ends₁ := ends₁.feed (path₁.inBounds hbounds) more
    obtain ⟨-, hsame, rfl⟩ := (hfeed path₁).eq_of_stuck ends₁.stuck path₂ ends₂.stuck
    refine ⟨ends₁.unique ends₂, ?_⟩
    rw [hpath₁.popped_eq, hpath₂.popped_eq, hsame]

/-- A byte that is there when `,` asks for it, and one that comes late, in pieces and with another
behind it. -/
theorem arrival_irrelevant_of_echo :
    let echo : Program := ⟨#[some .read, some .print]⟩
    let s : System := ⟨⟨1, .empty, false, true⟩, #[⟨.run, echo, .cleared⟩]⟩
    let early : List Act := .push [7] :: List.replicate 9 (.advance 0)
    let late : List Act := List.replicate 5 (.advance 0) ++ [.push [], .push [7], .push [8]] ++
      List.replicate 6 (.advance 0)
    let r : Result := .done ⟨#[7], .completed, ⟨#[7], 0⟩⟩
    s.Begun 1 echo 0 ∧ (s.after early).result? 0 = some r ∧ (s.after late).result? 0 = some r ∧
      s.popped 0 early = s.popped 0 late := by
  intro echo s early late r
  have begun : s.Begun 1 echo 0 :=
    ⟨_, [.call .run echo, .advance 0], _, rfl, rfl, rfl, rfl, rfl⟩
  have hearly : (s.after early).result? 0 = some r := by decide
  have hlate : (s.after late).result? 0 = some r := by decide
  have h := arrival_irrelevant begun begun (show ∀ a ∈ early, ¬ a.Disturbs 0 by decide)
    (show ∀ a ∈ late, ¬ a.Disturbs 0 by decide) (show pushed early <+: pushed late by decide)
  exact ⟨begun, hearly, hlate, (h.2 r r hearly hlate).2⟩

end System

end Brainfuck
