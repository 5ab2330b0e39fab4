import Brainfuck.Proofs.Schedule

/-!
# Who owns the engine

A call owns the engine from the act that takes it to the act that releases it. `Exclusive` says of
one system that at most one call owns it, that the busy flag shows exactly this, and that the
running flag is set only for an owner. Every act keeps it (`Exclusive.acts`), so it holds after
every schedule.
-/

namespace Brainfuck

namespace Stage

/-- The stages between taking the engine and releasing it. -/
def owns : Stage → Bool
  | .requested | .rejected | .returned _ => false
  | _ => true

/-- The stages between setting the running flag and taking it back. -/
def raised : Stage → Bool
  | .launching | .active _ | .lowering _ => true
  | _ => false

/-- The result of a call at this stage. -/
def result? : Stage → Option Result
  | .rejected => some (.failed .engineBusy)
  | .returned r => some r
  | _ => none

theorem owns_of_raised {stage : Stage} (h : stage.raised = true) : stage.owns = true := by
  cases stage <;> simp_all [raised, owns]

variable {program : Program} {e e' : Engine} {stage stage' : Stage}

/-- The engine is taken when it is free, released by its owner, or neither. -/
theorem Moves.ownership (h : Moves program e stage e' stage') :
    (stage.owns = false ∧ stage'.owns = true ∧ e.busy = false ∧ e'.busy = true) ∨
    (stage.owns = true ∧ stage'.owns = false ∧ e'.busy = false) ∨
    (stage'.owns = stage.owns ∧ e'.busy = e.busy) := by
  cases h with
  | takes free => exact .inl ⟨rfl, rfl, free, rfl⟩
  | releases => exact .inr (.inl ⟨rfl, rfl, rfl⟩)
  | _ => exact .inr (.inr ⟨rfl, rfl⟩)

/-- The running flag is set, taken back by the call that set it, or neither. -/
theorem Moves.flag (h : Moves program e stage e' stage') :
    (stage = .cleared ∧ stage' = .launching ∧ e'.running = true) ∨
    ((∃ r, stage = .lowering r ∧ stage' = .releasing r) ∧ e'.running = false) ∨
    (stage'.raised = stage.raised ∧ e'.running = e.running) := by
  cases h with
  | raises => exact .inl ⟨rfl, rfl, rfl⟩
  | lowers => exact .inr (.inl ⟨⟨_, rfl, rfl⟩, rfl⟩)
  | _ => exact .inr (.inr ⟨rfl, rfl⟩)

theorem Breaks.owns_eq (h : stage.Breaks stage') : stage'.owns = stage.owns := by
  cases h <;> rfl

theorem Breaks.raised_eq (h : stage.Breaks stage') : stage'.raised = stage.raised := by
  cases h <;> rfl

/-- A call that does not own a busy engine leaves it alone. -/
theorem Moves.engine_eq (h : Moves program e stage e' stage') (howns : stage.owns = false)
    (hbusy : e.busy = true) : e' = e ∧ stage'.owns = false := by
  cases h with
  | takes free => simp [free] at hbusy
  | rejects | rejected | returned => exact ⟨rfl, rfl⟩
  | _ => cases howns

end Stage

namespace System

/-- Call number `index` is in a stage of this kind. -/
def InStage (s : System) (kind : Stage → Bool) (index : Nat) : Prop :=
  ∃ stage, s.stage? index = some stage ∧ kind stage = true

instance (s : System) (kind : Stage → Bool) (index : Nat) : Decidable (s.InStage kind index) :=
  decidable_of_iff ((s.stage? index).any kind = true) (Option.any_eq_true ..)

/-- Call number `index` owns the engine. -/
def Owns (s : System) (index : Nat) : Prop :=
  s.InStage Stage.owns index

/-- Call number `index` has set the running flag and not yet taken it back. -/
def Raised (s : System) (index : Nat) : Prop :=
  s.InStage Stage.raised index

instance (s : System) (index : Nat) : Decidable (s.Owns index) :=
  inferInstanceAs (Decidable (s.InStage Stage.owns index))

instance (s : System) (index : Nat) : Decidable (s.Raised index) :=
  inferInstanceAs (Decidable (s.InStage Stage.raised index))

theorem Raised.owns {s : System} {index : Nat} (h : s.Raised index) : s.Owns index := by
  obtain ⟨stage, hstage, hraised⟩ := h
  exact ⟨stage, hstage, Stage.owns_of_raised hraised⟩

theorem stage?_of_call {s : System} {index : Nat} {c : Call} (h : s.calls[index]? = some c) :
    s.stage? index = some c.stage := by
  rw [stage?, h, Option.map_some]

/-- A call that has a stage exists. -/
theorem exists_call_of_stage? {s : System} {index : Nat} {stage : Stage}
    (h : s.stage? index = some stage) : ∃ c, s.calls[index]? = some c ∧ c.stage = stage := by
  obtain ⟨c, hc, hstage⟩ := Option.map_eq_some_iff.mp h
  exact ⟨c, hc, hstage⟩

theorem result?_eq (s : System) (index : Nat) :
    s.result? index = (s.stage? index).bind Stage.result? := by
  unfold result? stage?
  cases s.calls[index]? with
  | none => rfl
  | some c =>
    obtain ⟨manner, program, stage⟩ := c
    cases stage <;> rfl

/-- The stages after one call has changed. -/
theorem stage?_set {s : System} {index : Nat} {c : Call} (h : s.calls[index]? = some c)
    (e : Engine) (c' : Call) (i : Nat) :
    (⟨e, s.calls.setIfInBounds index c'⟩ : System).stage? i =
      if i = index then some c'.stage else s.stage? i := by
  have hlt := (Array.getElem?_eq_some_iff.mp h).1
  by_cases hi : i = index
  · subst hi
    simp [stage?, hlt]
  · simp [stage?, hi, Array.getElem?_setIfInBounds_ne (Ne.symm hi)]

/-- The stages after one more call was made. -/
theorem stage?_push (s : System) (e : Engine) (c : Call) (i : Nat) :
    (⟨e, s.calls.push c⟩ : System).stage? i =
      if i = s.calls.size then some c.stage else s.stage? i := by
  by_cases hi : i = s.calls.size <;> simp [stage?, Array.getElem?_push, hi]

theorem stage?_size (s : System) : s.stage? s.calls.size = none := by
  simp [stage?]

theorem inStage_set {s : System} {index : Nat} {c : Call} (h : s.calls[index]? = some c)
    (e : Engine) (c' : Call) (kind : Stage → Bool) (i : Nat) :
    (⟨e, s.calls.setIfInBounds index c'⟩ : System).InStage kind i ↔
      if i = index then kind c'.stage = true else s.InStage kind i := by
  unfold InStage
  rw [stage?_set h]
  by_cases hi : i = index <;> simp [hi]

theorem inStage_call {s : System} {index : Nat} {c : Call} (h : s.calls[index]? = some c)
    (kind : Stage → Bool) : s.InStage kind index ↔ kind c.stage = true := by
  simp [InStage, stage?_of_call h]

theorem inStage_request (s : System) (e : Engine) (manner : Manner) (program : Program)
    (kind : Stage → Bool) (hkind : kind .requested = false) (i : Nat) :
    (⟨e, s.calls.push (.request manner program)⟩ : System).InStage kind i ↔
      s.InStage kind i := by
  unfold InStage
  rw [stage?_push]
  by_cases hi : i = s.calls.size
  · subst hi
    simp [stage?_size, Call.request, hkind]
  · simp [hi]

/-! ## One owner -/

/-- At most one call owns the engine, and the flags show whether one does. -/
structure Exclusive (s : System) : Prop where
  unique : ∀ {i j}, s.Owns i → s.Owns j → i = j
  busy_iff : s.engine.busy = true ↔ ∃ i, s.Owns i
  raised : s.engine.running = true → ∃ i, s.Raised i

theorem new_eq_ok {memory : Nat} {s : System} (h : System.new memory = .ok s) :
    memory ≠ 0 ∧ s = ⟨⟨memory, .empty, false, false⟩, #[]⟩ := by
  by_cases hmemory : memory = 0
  · simp [System.new, Engine.new, hmemory] at h
  · simp only [System.new, Engine.new, if_neg hmemory, Except.ok.injEq] at h
    exact ⟨hmemory, h.symm⟩

theorem not_inStage_of_new {memory : Nat} {s : System} (h : System.new memory = .ok s)
    (kind : Stage → Bool) (i : Nat) : ¬ s.InStage kind i := by
  obtain ⟨-, rfl⟩ := new_eq_ok h
  rintro ⟨stage, hstage, -⟩
  simp [stage?] at hstage

theorem exclusive_new {memory : Nat} {s : System} (h : System.new memory = .ok s) :
    s.Exclusive := by
  have hnone := not_inStage_of_new h
  obtain ⟨-, rfl⟩ := new_eq_ok h
  refine ⟨fun hi => absurd hi (hnone _ _), ⟨nofun, ?_⟩, nofun⟩
  rintro ⟨i, hi⟩
  exact absurd hi (hnone _ i)

variable {s s' : System} {a : Act} {index : Nat} {c c' : Call} {e : Engine}

/-- A call that keeps its ownership, in an engine that keeps its busy flag. -/
theorem Exclusive.set (hs : s.Exclusive) (call : s.calls[index]? = some c)
    (howns : c'.stage.owns = c.stage.owns) (hbusy : e.busy = s.engine.busy)
    (hraised : e.running = true → ∃ i, (⟨e, s.calls.setIfInBounds index c'⟩ : System).Raised i) :
    (⟨e, s.calls.setIfInBounds index c'⟩ : System).Exclusive := by
  have hiff : ∀ i, (⟨e, s.calls.setIfInBounds index c'⟩ : System).Owns i ↔ s.Owns i := by
    intro i
    unfold Owns
    rw [inStage_set call]
    by_cases hi : i = index
    · rw [if_pos hi, hi, inStage_call call, howns]
    · rw [if_neg hi]
  refine ⟨fun hi hj => hs.unique ((hiff _).mp hi) ((hiff _).mp hj), ?_, hraised⟩
  rw [hbusy, hs.busy_iff]
  exact exists_congr fun i => (hiff i).symm

/-- A call that has not lowered the running flag still covers it. -/
theorem raised_set (call : s.calls[index]? = some c) (e : Engine)
    (hraised : c'.stage.raised = c.stage.raised) (h : ∃ i, s.Raised i) :
    ∃ i, (⟨e, s.calls.setIfInBounds index c'⟩ : System).Raised i := by
  obtain ⟨i, hi⟩ := h
  refine ⟨i, ?_⟩
  unfold Raised at hi ⊢
  rw [inStage_set call]
  by_cases hindex : i = index
  · rw [hindex, inStage_call call] at hi
    rw [if_pos hindex, hraised]
    exact hi
  · rw [if_neg hindex]
    exact hi

theorem Exclusive.advances {stage : Stage} (hs : s.Exclusive) (call : s.calls[index]? = some c)
    (move : Stage.Moves c.program s.engine c.stage e stage) :
    (⟨e, s.calls.setIfInBounds index { c with stage }⟩ : System).Exclusive := by
  have hset := fun i kind => inStage_set call e { c with stage } kind i
  have hraised : e.running = true →
      ∃ i, (⟨e, s.calls.setIfInBounds index { c with stage }⟩ : System).Raised i := by
    intro hrunning
    rcases move.flag with ⟨-, hstage, -⟩ | ⟨-, hlowered⟩ | ⟨hsame, hflag⟩
    · exact ⟨index, (hset _ _).mpr (by simp [hstage, Stage.raised])⟩
    · rw [hlowered] at hrunning
      cases hrunning
    · exact raised_set call e hsame (hs.raised (hflag ▸ hrunning))
  rcases move.ownership with ⟨-, howns, hfree, hbusy⟩ | ⟨howner, hreleased, hbusy⟩ |
    ⟨hsame, hbusy⟩
  · -- the engine was free, so nobody else owns it
    have hnone : ∀ i, ¬ s.Owns i := fun i hi => by
      rw [hs.busy_iff.mpr ⟨i, hi⟩] at hfree
      cases hfree
    have honly : ∀ i, (⟨e, s.calls.setIfInBounds index { c with stage }⟩ : System).Owns i →
        i = index := by
      intro i hi
      by_cases hindex : i = index
      · exact hindex
      · have hi' := (hset i _).mp hi
        rw [if_neg hindex] at hi'
        exact absurd hi' (hnone i)
    refine ⟨fun hi hj => (honly _ hi).trans (honly _ hj).symm, ?_, hraised⟩
    rw [hbusy]
    exact ⟨fun _ => ⟨index, (hset _ _).mpr (by simpa using howns)⟩, fun _ => rfl⟩
  · -- the only owner releases the engine, so nobody owns it any more
    have hnone : ∀ i, ¬ (⟨e, s.calls.setIfInBounds index { c with stage }⟩ : System).Owns i := by
      intro i hi
      have hi' := (hset i _).mp hi
      by_cases hindex : i = index
      · rw [if_pos hindex, hreleased] at hi'
        cases hi'
      · rw [if_neg hindex] at hi'
        exact hindex (hs.unique hi' ((inStage_call call _).mpr howner))
    refine ⟨fun hi => absurd hi (hnone _), ?_, hraised⟩
    rw [hbusy]
    exact ⟨nofun, fun ⟨i, hi⟩ => absurd hi (hnone i)⟩
  · exact hs.set call hsame hbusy hraised

theorem Exclusive.acts (hs : s.Exclusive) (h : s.Acts a s') : s'.Exclusive := by
  cases h with
  | advances call move => exact hs.advances call move
  | breaks _ call broken =>
    exact hs.set call broken.owns_eq rfl fun hrunning =>
      raised_set call s.engine broken.raised_eq (hs.raised hrunning)
  | absent => exact hs
  | @calls manner program =>
    have howns := inStage_request s s.engine manner program Stage.owns rfl
    have hraised := inStage_request s s.engine manner program Stage.raised rfl
    refine ⟨fun hi hj => hs.unique ((howns _).mp hi) ((howns _).mp hj), ?_, fun hrunning => ?_⟩
    · exact hs.busy_iff.trans (exists_congr fun i => (howns i).symm)
    · obtain ⟨i, hi⟩ := hs.raised hrunning
      exact ⟨i, (hraised i).mpr hi⟩
  | pushes => exact ⟨hs.unique, hs.busy_iff, hs.raised⟩
  | stops => exact ⟨hs.unique, hs.busy_iff, nofun⟩

theorem Exclusive.after (hs : s.Exclusive) (acts : List Act) : (s.after acts).Exclusive :=
  after_induction s acts hs fun s a hs => hs.acts (s.acts a)

end System

end Brainfuck
