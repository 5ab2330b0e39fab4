import Brainfuck.Engine.Worker
import Brainfuck.Machine.Stretch

/-!
# Silent work

A worker whose steps nobody looks at can do many pieces of work at once, as long as they neither
print nor read. `silently_stretch` says that this is the same as doing them one after the other.
-/

namespace Brainfuck.Worker

/-- Does at most `left` pieces of work at once, as long as they are silent. The result is how many
of these are not done, and the worker after the others. -/
def stretch (left : Nat) : Worker → Nat × Worker
  | ⟨program, machine, stalled, .ready⟩ =>
    let (unused, machine) := machine.stretch program left
    (unused, ⟨program, machine, stalled, .ready⟩)
  | w => (left, w)

/-- A worker that may go on comes to another by so many pieces of work, none of which takes a byte
or calls a hook. -/
inductive Silently (queue : ByteQueue) : (pieces : Nat) → Worker → Worker → Prop where
  | nil {w : Worker} : Silently queue 0 w w
  | cons {pieces : Nat} {w w' w'' : Worker} {events : List Event}
      (first : w.advance true queue = ⟨.working w', queue, events⟩)
      (quiet : events.all Event.isStep = true) (later : Silently queue pieces w' w'') :
      Silently queue (pieces + 1) w w''

/-- A worker that goes over a silent position takes no byte and calls no hook. -/
theorem advance_of_goesSilently {p : Program} {m m' : Machine} (stalled : Bool) (queue : ByteQueue)
    (h : m.GoesSilently p m') :
    ∃ events, events.all Event.isStep = true ∧ advance true queue ⟨p, m, stalled, .ready⟩ =
      ⟨.working ⟨p, m', stalled, .ready⟩, queue, events⟩ := by
  cases h with
  | skips hip hop => exact ⟨[], rfl, by simp [advance, cycle, hip, hop]⟩
  | @performs _ op cell hop hcell hprint hread hperformed =>
    have hip := Program.lt_size_of_op?_eq_some hop
    refine ⟨[.step m.ip op m.tape.pointer cell], rfl, ?_⟩
    cases op <;> simp_all [advance, cycle]

/-- A stretch is as many pieces of work as it uses. -/
theorem silently_stretch (p : Program) (stalled : Bool) (queue : ByteQueue) (left : Nat)
    (m : Machine) : Silently queue (left - (m.stretch p left).1) ⟨p, m, stalled, .ready⟩
      ⟨p, (m.stretch p left).2, stalled, .ready⟩ := by
  induction left generalizing m with
  | zero => exact .nil
  | succ left ih =>
    rcases m.stretch_succ_cases p left with hstays | ⟨m', goes, hgoes⟩
    · rw [hstays, Nat.sub_self]
      exact .nil
    · obtain ⟨events, quiet, first⟩ := advance_of_goesSilently stalled queue goes
      rw [hgoes, Nat.succ_sub (m'.stretch_le p left)]
      exact .cons first quiet (ih m')

end Brainfuck.Worker
