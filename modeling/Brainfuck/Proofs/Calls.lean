import Brainfuck.Proofs.Ownership

/-!
# One call among the others

What an act is for one call is said by `Call.Sees`: the call moves or breaks off itself, or it stays
where it is, and as long as it owns the engine nobody else does more to the engine than push bytes
and ask for stops (`Acts.sees`). A call whose run is over cannot be held up by others either: it
takes back its flags in its next two acts (`closing_after`).
-/

namespace Brainfuck

/-- What an act does to the stage of call number `index` and to the engine. -/
inductive Call.Sees (index : Nat) (c : Call) (e : Engine) (a : Act) : Engine → Stage → Prop where
  | moves {e' : Engine} {stage : Stage} (own : a = .advance index)
      (move : Stage.Moves c.program e c.stage e' stage) : Sees index c e a e' stage
  | breaks {stage : Stage} (own : a.BreaksOff index) (broken : c.stage.Breaks stage) :
      Sees index c e a e stage
  | pushes {bytes : List UInt8} (other : a = .push bytes) : Sees index c e a (e.push bytes) c.stage
  | stops (other : a = .stop) : Sees index c e a e.stop c.stage
  | others {e' : Engine} (own : a ≠ .advance index) (quiet : ∀ bytes, a ≠ .push bytes)
      (kept : c.stage.owns = true → e' = e) : Sees index c e a e' c.stage

/-- The next action of a call is a move. -/
theorem Call.Sees.move {index : Nat} {c : Call} {e e' : Engine} {stage : Stage}
    (h : c.Sees index e (.advance index) e' stage) : c.stage.Moves c.program e e' stage := by
  cases h with
  | moves own move => exact move
  | breaks own => exact absurd rfl (own.ne_advance index)
  | pushes other => cases other
  | stops other => cases other
  | others own => exact absurd rfl own

namespace System

variable {s s' : System} {a : Act} {index : Nat} {c : Call}

theorem Acts.sees (hs : s.Exclusive) (h : s.Acts a s') (hc : s.calls[index]? = some c) :
    ∃ stage, s'.calls[index]? = some { c with stage } ∧
      c.Sees index s.engine a s'.engine stage := by
  have hlt := (Array.getElem?_eq_some_iff.mp hc).1
  cases h with
  | @advances i c' e stage call move =>
    by_cases hi : i = index
    · subst hi
      cases hc.symm.trans call
      exact ⟨stage, by simp [hlt], .moves rfl move⟩
    · have hfree : c.stage.owns = true → e = s.engine := by
        -- the call that acts does not own the engine, since this one does
        intro howns
        have hindex : s.Owns index := (inStage_call hc _).mpr howns
        have hother : c'.stage.owns = false := by
          rw [Bool.eq_false_iff]
          exact fun howns' => hi (hs.unique ((inStage_call call _).mpr howns') hindex)
        exact (move.engine_eq hother (hs.busy_iff.mpr ⟨index, hindex⟩)).1
      refine ⟨c.stage, ?_, .others (fun heq => hi (Act.advance.inj heq)) (by simp) hfree⟩
      rw [Array.getElem?_setIfInBounds_ne hi]
      exact hc
  | @breaks _ i c' stage own call broken =>
    by_cases hi : i = index
    · subst hi
      cases hc.symm.trans call
      exact ⟨stage, by simp [hlt], .breaks own broken⟩
    · refine ⟨c.stage, ?_, .others (own.ne_advance index) own.ne_push fun _ => rfl⟩
      rw [Array.getElem?_setIfInBounds_ne hi]
      exact hc
  | @absent _ i own call =>
    have hi : i ≠ index := by
      rintro rfl
      cases hc.symm.trans call
    refine ⟨c.stage, hc, ?_⟩
    rcases own with rfl | own
    · exact .others (fun heq => hi (Act.advance.inj heq)) (by simp) fun _ => rfl
    · exact .others (own.ne_advance index) own.ne_push fun _ => rfl
  | calls =>
    refine ⟨c.stage, ?_, .others (by simp) (by simp) fun _ => rfl⟩
    rw [Array.getElem?_push_lt hlt]
    exact congrArg some (Array.getElem?_eq_some_iff.mp hc).2
  | pushes => exact ⟨c.stage, hc, .pushes rfl⟩
  | stops => exact ⟨c.stage, hc, .stops rfl⟩

end System

/-! ## A run that is over -/

namespace Stage

/-- The stages of a call whose run is over with this result, by the number of flags that it still
has to take back. -/
def closing (r : Result) : (flags : Nat) → Stage
  | 0 => .returned r
  | 1 => .releasing r
  | _ + 2 => .lowering r

variable {program : Program} {e e' : Engine} {stage stage' : Stage} {r : Result} {flags : Nat}

theorem Moves.of_closing (h : Moves program e (closing r flags) e' stage) (hflags : flags ≤ 2) :
    stage = closing r (flags - 1) := by
  obtain rfl | rfl | rfl : flags = 0 ∨ flags = 1 ∨ flags = 2 := by omega
  all_goals cases h; rfl

theorem Breaks.of_closing (h : (closing r flags).Breaks stage) : stage = closing r flags := by
  obtain _ | _ | _ := flags
  all_goals cases h; rfl

end Stage

/-- What another act leaves of a call whose run is over. -/
theorem Call.Sees.of_closing {index : Nat} {c : Call} {e e' : Engine} {a : Act} {stage : Stage}
    {r : Result} {flags : Nat} (h : c.Sees index e a e' stage) (hc : c.stage = .closing r flags)
    (hflags : flags ≤ 2) :
    stage = .closing r (flags - if a = .advance index then 1 else 0) := by
  cases h with
  | moves own move =>
    rw [hc] at move
    rw [if_pos own]
    exact move.of_closing hflags
  | breaks own broken =>
    rw [hc] at broken
    rw [if_neg (own.ne_advance index)]
    exact broken.of_closing
  | pushes other => rw [if_neg (by simp [other])]; exact hc
  | stops other => rw [if_neg (by simp [other])]; exact hc
  | others own => rw [if_neg own]; exact hc

/-- How often a call goes on, act by act. -/
theorem Act.count_advance_cons (index : Nat) (a : Act) (acts : List Act) :
    (a :: acts).count (.advance index) =
      (if a = .advance index then 1 else 0) + acts.count (.advance index) := by
  rw [List.count_cons, Nat.add_comm]
  by_cases ha : a = .advance index <;> simp [ha]

namespace System

variable {s : System} {index : Nat}

/-- A call whose run is over takes back a flag each time it goes on. -/
theorem closing_after (hs : s.Exclusive) {r : Result} {flags : Nat} (hflags : flags ≤ 2)
    (h : s.stage? index = some (.closing r flags)) (later : List Act) :
    (s.after later).stage? index = some (.closing r (flags - later.count (.advance index))) := by
  induction later generalizing s flags with
  | nil => exact h
  | cons a later ih =>
    obtain ⟨c, hc, hstage⟩ := exists_call_of_stage? h
    obtain ⟨stage, hc', sees⟩ := (s.acts a).sees hs hc
    have hnext : (s.act a).1.stage? index =
        some (.closing r (flags - if a = .advance index then 1 else 0)) := by
      rw [stage?_of_call hc', sees.of_closing hstage hflags]
    rw [after_cons, ih (hs.acts (s.acts a)) (by omega) hnext, Act.count_advance_cons, Nat.sub_sub]

end System

end Brainfuck
