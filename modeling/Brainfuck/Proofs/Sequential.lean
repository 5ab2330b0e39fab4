import Brainfuck.Machine.Sequential

/-!
# Paths of a sequential machine

`Path p n s done t` says that the program `p` takes exactly `n` steps from the state `s` to the
state `t` and that `done` are the operators it completes on the way, each with its position, the
byte it took and the machine after it. A step has at most one successor, so paths have no branch
points: of two paths from one state one continues the other (`Path.split`), and two that come to
an end agree in everything (`Path.eq_of_stuck`).

Bytes that arrive later do not disturb what was done without them: a path stays a path when bytes
are added behind its input (`Path.feed`). Together the two facts say that the completed operators
for a shorter input are a beginning of those for a longer one.
-/

namespace Brainfuck

/-- An operator that was carried out: its position, the byte it took from the input, and the machine
after it. -/
structure Completion where
  ip : Nat
  taken : Option UInt8
  machine : Machine
  deriving DecidableEq

/-- The bytes that operators took from the input. -/
def takenBytes (done : List Completion) : List UInt8 :=
  done.filterMap (·.taken)

@[simp] theorem takenBytes_nil : takenBytes [] = [] := rfl

@[simp] theorem takenBytes_append (done later : List Completion) :
    takenBytes (done ++ later) = takenBytes done ++ takenBytes later :=
  List.filterMap_append

/-- The machine after the last of these operators, or the one before them if there are none. -/
def lastMachine (origin : Machine) : List Completion → Machine
  | [] => origin
  | c :: done => lastMachine c.machine done

/-! ## The pointer stays on the tape -/

theorem Tape.InBounds.exists_current? {t : Tape} (h : t.InBounds) :
    ∃ cell, t.current? = some cell :=
  ⟨_, Tape.current?_eq_some t h⟩

theorem Tape.current?_set {t : Tape} (h : t.InBounds) (value : UInt8) :
    (t.set value).current? = some value := by
  simp [Tape.current?, Tape.set, show t.pointer < t.cells.size from h]

theorem Machine.perform_inBounds {p : Program} {cell : UInt8} {m m' : Machine} {op : Op}
    (h : m.tape.InBounds) (hm : m.perform p cell op = .ok m') : m'.tape.InBounds := by
  obtain ⟨tape, output, ip⟩ := m
  cases op with
  | right =>
    simp only [Machine.perform] at hm
    split at hm
    · next tape' htape => cases hm; exact Tape.InBounds.moveRight htape
    · cases hm
  | left =>
    simp only [Machine.perform] at hm
    split at hm
    · next tape' htape => cases hm; exact Tape.InBounds.moveLeft h htape
    · cases hm
  | increment => cases hm; exact Tape.InBounds.modify h _
  | decrement => cases hm; exact Tape.InBounds.modify h _
  | print => cases hm; exact h
  | read => cases hm; exact h
  | openLoop =>
    simp only [Machine.perform] at hm
    split at hm
    · split at hm
      · cases hm; exact h
      · cases hm
    · cases hm; exact h
  | closeLoop =>
    simp only [Machine.perform] at hm
    split at hm
    · cases hm; exact h
    · split at hm
      · cases hm; exact h
      · cases hm

/-- The tape keeps its cells. -/
theorem Machine.perform_size {p : Program} {cell : UInt8} {m m' : Machine} {op : Op}
    (hm : m.perform p cell op = .ok m') : m'.tape.size = m.tape.size := by
  obtain ⟨tape, output, ip⟩ := m
  cases op with
  | right | left =>
    simp only [Machine.perform, Tape.moveRight, Tape.moveLeft] at hm
    split at hm
    · next tape' htape =>
      cases hm
      split at htape <;> cases htape
      rfl
    · cases hm
  | increment | decrement => cases hm; exact Array.size_modify
  | print | read => cases hm; rfl
  | openLoop =>
    simp only [Machine.perform] at hm
    split at hm
    · split at hm <;> cases hm
      rfl
    · cases hm; rfl
  | closeLoop =>
    simp only [Machine.perform] at hm
    split at hm
    · cases hm; rfl
    · split at hm <;> cases hm
      rfl

theorem Machine.start_eq_ok {memory : Nat} {m : Machine} (h : Machine.start memory = .ok m) :
    ∃ tape, Tape.blank memory = .ok tape ∧ m = ⟨tape, #[], 0⟩ := by
  unfold Machine.start at h
  split at h
  · next tape htape => cases h; exact ⟨tape, htape, rfl⟩
  · cases h

theorem Machine.start_inBounds {memory : Nat} {m : Machine} (h : Machine.start memory = .ok m) :
    m.tape.InBounds := by
  obtain ⟨tape, htape, rfl⟩ := Machine.start_eq_ok h
  exact Tape.inBounds_of_blank htape

theorem Machine.start_size {memory : Nat} {m : Machine} (h : Machine.start memory = .ok m) :
    m.tape.size = memory := by
  obtain ⟨tape, htape, rfl⟩ := Machine.start_eq_ok h
  unfold Tape.blank at htape
  split at htape <;> cases htape
  exact Array.size_replicate

namespace Sequential

variable {p : Program} {s t u : Sequential}

/-! ## What one step does -/

/-- The cases of one step of a machine whose pointer is on the tape. -/
inductive Does (p : Program) (s : Sequential) : Step → Prop where
  | completed (hip : p.size ≤ s.machine.ip) : Does p s .completed
  | comment (hip : s.machine.ip < p.size) (hop : p.op? s.machine.ip = none) :
      Does p s (.next ⟨s.machine.skip, s.input⟩)
  | reads {value : UInt8} {rest : List UInt8} (hop : p.op? s.machine.ip = some .read)
      (hinput : s.input = value :: rest) : Does p s (.next ⟨s.machine.accept value, rest⟩)
  | starved (hop : p.op? s.machine.ip = some .read) (hinput : s.input = []) : Does p s .starved
  | performs {op : Op} {cell : UInt8} {machine : Machine} (hop : p.op? s.machine.ip = some op)
      (hread : op ≠ .read) (hcell : s.machine.tape.current? = some cell)
      (hmachine : s.machine.perform p cell op = .ok machine) : Does p s (.next ⟨machine, s.input⟩)
  | fails {op : Op} {cell : UInt8} {failure : Failure} (hop : p.op? s.machine.ip = some op)
      (hread : op ≠ .read) (hcell : s.machine.tape.current? = some cell)
      (hfailure : s.machine.perform p cell op = .error failure) : Does p s (.failed failure)

theorem Does.step_eq {next : Step} (h : Does p s next) (hs : s.machine.tape.InBounds) :
    s.step p = next := by
  obtain ⟨cell, hcell⟩ := hs.exists_current?
  cases h with
  | completed hip => rw [step, if_neg (Nat.not_lt.mpr hip)]
  | comment hip hop => simp [step, hip, hop]
  | reads hop hinput => simp [step, Program.lt_size_of_op?_eq_some hop, hop, hcell, hinput]
  | starved hop hinput => simp [step, Program.lt_size_of_op?_eq_some hop, hop, hcell, hinput]
  | @performs op _ _ hop hread hcell hmachine =>
    have hip := Program.lt_size_of_op?_eq_some hop
    cases op <;> simp_all [step]
  | @fails op _ _ hop hread hcell hfailure =>
    have hip := Program.lt_size_of_op?_eq_some hop
    cases op <;> simp_all [step]

theorem does_step (p : Program) (hs : s.machine.tape.InBounds) : Does p s (s.step p) := by
  have does : ∀ {next}, Does p s next → Does p s (s.step p) := by
    intro next h
    rw [h.step_eq hs]
    exact h
  obtain ⟨cell, hcell⟩ := hs.exists_current?
  by_cases hip : s.machine.ip < p.size
  · cases hop : p.op? s.machine.ip with
    | none => exact does (.comment hip hop)
    | some op =>
      by_cases hread : op = .read
      · subst hread
        cases hinput : s.input with
        | nil => exact does (.starved hop hinput)
        | cons value rest => exact does (.reads hop hinput)
      · cases hm : s.machine.perform p cell op with
        | ok machine => exact does (.performs hop hread hcell hm)
        | error failure => exact does (.fails hop hread hcell hm)
  · exact does (.completed (Nat.not_lt.mp hip))

/-- What a step that has a given outcome does. -/
theorem does_of_step_eq {next : Step} (h : s.step p = next) (hs : s.machine.tape.InBounds) :
    Does p s next :=
  h ▸ does_step p hs

theorem step_inBounds (h : s.step p = .next t) (hs : s.machine.tape.InBounds) :
    t.machine.tape.InBounds := by
  cases does_of_step_eq h hs with
  | comment => exact hs
  | reads => exact Tape.InBounds.set hs _
  | performs _ _ _ hmachine => exact Machine.perform_inBounds hs hmachine

theorem step_size (h : s.step p = .next t) (hs : s.machine.tape.InBounds) :
    t.machine.tape.size = s.machine.tape.size := by
  cases does_of_step_eq h hs with
  | comment => rfl
  | reads => exact Array.size_setIfInBounds
  | performs _ _ _ hmachine => exact Machine.perform_size hmachine

/-- A state without a successor. -/
def Stuck (p : Program) (s : Sequential) : Prop :=
  ∀ t, s.step p ≠ .next t

theorem stuck_of_starved (h : s.step p = .starved) : Stuck p s := by
  intro t ht
  rw [h] at ht
  cases ht

/-- A run that has come to this state ends with the result if nobody asks it to stop. -/
inductive Ends (p : Program) (s : Sequential) : Result → Prop where
  | completed (finish : s.step p = .completed) : Ends p s (.done (s.machine.outcome p))
  | failed {failure : Failure} (failed : s.step p = .failed failure) : Ends p s (.ofFailure failure)

theorem Ends.of_size_le (hip : p.size ≤ s.machine.ip) (hs : s.machine.tape.InBounds) :
    Ends p s (.done (s.machine.outcome p)) :=
  .completed (Does.step_eq (.completed hip) hs)

/-- Without a fault a run ends at the end of its program. -/
theorem Ends.of_done {o : Outcome} (h : Ends p s (.done o)) (hs : s.machine.tape.InBounds) :
    p.size ≤ s.machine.ip ∧ o = s.machine.outcome p := by
  generalize hr : Result.done o = r at h
  cases h with
  | completed finish =>
    cases hr
    cases does_of_step_eq finish hs with
    | completed hip => exact ⟨hip, rfl⟩
  | @failed failure =>
    cases failure <;> cases hr

theorem Ends.stuck {r : Result} (h : Ends p s r) : Stuck p s := by
  intro t ht
  cases h with
  | completed finish => rw [finish] at ht; cases ht
  | failed failed => rw [failed] at ht; cases ht

theorem Ends.step_ne_starved {r : Result} (h : Ends p s r) : s.step p ≠ .starved := by
  intro hstarved
  cases h with
  | completed finish => rw [hstarved] at finish; cases finish
  | failed failed => rw [hstarved] at failed; cases failed

theorem Ends.unique {r r' : Result} (h : Ends p s r) (h' : Ends p s r') : r = r' := by
  cases h with
  | completed finish =>
    cases h' with
    | completed => rfl
    | failed failed' => rw [finish] at failed'; cases failed'
  | failed failed =>
    cases h' with
    | completed finish' => rw [failed] at finish'; cases finish'
    | failed failed' => rw [failed] at failed'; cases failed'; rfl

/-! ## Paths -/

/-- The operator that the step from `s` to `t` completes, unless it passes a comment. -/
def completion? (p : Program) (s t : Sequential) : Option Completion :=
  (p.op? s.machine.ip).map fun op =>
    ⟨s.machine.ip, if op = .read then s.input.head? else none, t.machine⟩

/-- Of the operators exactly `,` takes a byte when it is completed. -/
theorem completion?_taken (h : s.step p = .next t) (hs : s.machine.tape.InBounds) {c : Completion}
    (hc : completion? p s t = some c) :
    p.op? c.ip = some .read ↔ ∃ value, c.taken = some value := by
  obtain ⟨op, hop, rfl⟩ := Option.map_eq_some_iff.mp hc
  cases does_of_step_eq h hs with
  | comment _ hop' =>
    rw [hop] at hop'
    cases hop'
  | reads hop' hinput =>
    cases hop.symm.trans hop'
    simp [hop, hinput]
  | performs hop' hread =>
    cases hop.symm.trans hop'
    simp [hop, hread]

/-- The program takes `steps` steps from the first state to the last, and completes these operators
on the way. The list grows at its front, as the induction over a path needs it; `Path.snoc` adds at
its end, as a run does. -/
inductive Path (p : Program) :
    (steps : Nat) → Sequential → List Completion → Sequential → Prop where
  | nil {s : Sequential} : Path p 0 s [] s
  | cons {steps : Nat} {s t u : Sequential} {done : List Completion} (first : s.step p = .next t)
      (later : Path p steps t done u) :
      Path p (steps + 1) s ((completion? p s t).toList ++ done) u

namespace Path

variable {m n : Nat} {done later : List Completion}

theorem single (h : s.step p = .next t) : Path p 1 s (completion? p s t).toList t := by
  have h' := Path.cons h (Path.nil (p := p))
  rwa [List.append_nil] at h'

theorem trans (h : Path p m s done t) (h' : Path p n t later u) :
    Path p (m + n) s (done ++ later) u := by
  induction h with
  | nil => rw [Nat.zero_add]; exact h'
  | cons first _ ih =>
    rw [Nat.succ_add, List.append_assoc]
    exact .cons first (ih h')

theorem snoc (h : Path p n s done t) (h' : t.step p = .next u) :
    Path p (n + 1) s (done ++ (completion? p t u).toList) u :=
  h.trans (single h')

theorem inBounds (h : Path p n s done t) (hs : s.machine.tape.InBounds) :
    t.machine.tape.InBounds := by
  induction h with
  | nil => exact hs
  | cons first _ ih => exact ih (step_inBounds first hs)

theorem size_eq (h : Path p n s done t) (hs : s.machine.tape.InBounds) :
    t.machine.tape.size = s.machine.tape.size := by
  induction h with
  | nil => rfl
  | cons first _ ih => exact (ih (step_inBounds first hs)).trans (step_size first hs)

/-- Of two paths from one state the longer continues the shorter. -/
theorem split (h : Path p m s done t) :
    ∀ {n : Nat} {all : List Completion} {u : Sequential}, Path p n s all u → m ≤ n →
      ∃ later, all = done ++ later ∧ Path p (n - m) t later u := by
  -- the longer path begins with the same step, since a state has one successor at most
  induction h with
  | nil =>
    intro n all u h' _
    exact ⟨all, rfl, h'⟩
  | cons first _ ih =>
    intro n all u h' hmn
    cases h' with
    | nil => exact absurd hmn (Nat.not_succ_le_zero _)
    | cons first' later' =>
      rw [first] at first'
      cases first'
      obtain ⟨later, rfl, hlater⟩ := ih later' (Nat.le_of_succ_le_succ hmn)
      exact ⟨later, (List.append_assoc ..).symm, by rwa [Nat.succ_sub_succ]⟩

/-- A path is given by its start and its number of steps. -/
theorem unique (h : Path p n s done t) {all : List Completion} (h' : Path p n s all u) :
    all = done ∧ u = t := by
  obtain ⟨later, rfl, hlater⟩ := h.split h' (Nat.le_refl n)
  rw [Nat.sub_self] at hlater
  cases hlater
  exact ⟨List.append_nil _, rfl⟩

/-- A path begins with paths of every smaller number of steps. -/
theorem shorten (h : Path p m s done t) (hnm : n ≤ m) : ∃ done u, Path p n s done u := by
  induction h generalizing n with
  | nil =>
    obtain rfl : n = 0 := Nat.le_zero.mp hnm
    exact ⟨[], _, .nil⟩
  | cons first _ ih =>
    cases n with
    | zero => exact ⟨[], _, .nil⟩
    | succ n =>
      obtain ⟨done, u, path⟩ := ih (Nat.le_of_succ_le_succ hnm)
      exact ⟨_, u, .cons first path⟩

/-- No path leads out of a state without a successor. -/
theorem eq_nil_of_stuck (hs : Stuck p s) (h : Path p n s done t) : n = 0 ∧ done = [] ∧ t = s := by
  cases h with
  | nil => exact ⟨rfl, rfl, rfl⟩
  | cons first _ => exact absurd first (hs _)

/-- Of all paths from a state, one that ends without a successor is the longest. -/
theorem le_of_stuck (h : Path p m s done t) (ht : Stuck p t) {all : List Completion}
    (h' : Path p n s all u) : n ≤ m := by
  rcases Nat.le_total n m with hle | hle
  · exact hle
  · obtain ⟨later, -, hlater⟩ := h.split h' hle
    have hzero := (eq_nil_of_stuck ht hlater).1
    omega

/-- Two paths from one state that end without a successor are the same path. -/
theorem eq_of_stuck (h : Path p m s done t) (ht : Stuck p t) {all : List Completion}
    (h' : Path p n s all u) (hu : Stuck p u) : m = n ∧ done = all ∧ t = u := by
  have hmn : m ≤ n := h'.le_of_stuck hu h
  obtain ⟨later, rfl, hlater⟩ := h.split h' hmn
  obtain ⟨hzero, rfl, rfl⟩ := eq_nil_of_stuck ht hlater
  exact ⟨by omega, (List.append_nil _).symm, rfl⟩

/-- Of the completed operators on two paths from one state, one list is a beginning of the other. -/
theorem comparable (h : Path p m s done t) {all : List Completion} (h' : Path p n s all u) :
    done <+: all ∨ all <+: done := by
  rcases Nat.le_total m n with hmn | hmn
  · obtain ⟨later, rfl, -⟩ := h.split h' hmn
    exact .inl (List.prefix_append ..)
  · obtain ⟨later, rfl, -⟩ := h'.split h hmn
    exact .inr (List.prefix_append ..)

/-- Before each operator and behind the last there are fewer comments than the program has
positions. -/
theorem steps_le (h : Path p n s done t) (hs : s.machine.tape.InBounds) :
    n ≤ p.size - s.machine.ip + done.length * (p.size + 1) := by
  induction h with
  | nil => exact Nat.zero_le _
  | @cons steps s t _ done first _ ih =>
    have hle := ih (step_inBounds first hs)
    rw [List.length_append, Nat.add_mul]
    have operator : ∀ {op}, p.op? s.machine.ip = some op →
        (completion? p s t).toList.length = 1 := by
      intro op hop
      simp [completion?, hop]
    cases does_of_step_eq first hs with
    | comment hip hop =>
      have hle : steps ≤ p.size - (s.machine.ip + 1) + done.length * (p.size + 1) := hle
      omega
    | reads hop | performs hop =>
      rw [operator hop]
      omega

/-- A path of so many steps completes so many operators. -/
theorem le_length (h : Path p n s done t) (hs : s.machine.tape.InBounds) {k : Nat}
    (hn : k * (p.size + 1) ≤ n) : k ≤ done.length := by
  have hle := h.steps_le hs
  have hlt : k * (p.size + 1) < (done.length + 1) * (p.size + 1) := by
    rw [Nat.add_mul done.length]
    omega
  exact Nat.le_of_lt_succ (Nat.lt_of_mul_lt_mul_right hlt)

/-- On an endless path any number of operators is completed. -/
theorem exists_completions_of_endless (endless : ∀ n, ∃ done u, Path p n s done u)
    (hs : s.machine.tape.InBounds) (k : Nat) :
    ∃ n done u, Path p n s done u ∧ k ≤ done.length := by
  obtain ⟨done, u, path⟩ := endless (k * (p.size + 1))
  exact ⟨_, done, u, path, path.le_length hs (Nat.le_refl _)⟩

/-- A path takes bytes from the front of the input and leaves the others. -/
theorem input_eq (h : Path p n s done t) (hs : s.machine.tape.InBounds) :
    s.input = takenBytes done ++ t.input := by
  induction h with
  | nil => rfl
  | @cons _ s t _ _ first _ ih =>
    rw [takenBytes_append, List.append_assoc, ← ih (step_inBounds first hs)]
    cases does_of_step_eq first hs with
    | comment _ hop => simp [completion?, hop]
    | reads hop hinput => simp [completion?, hop, hinput, takenBytes]
    | performs hop hread => simp [completion?, hop, hread, takenBytes]

/-- Between two operators only the position changes. -/
theorem lastMachine_eq (h : Path p n s done t) (hs : s.machine.tape.InBounds) {m : Machine}
    (htape : m.tape = s.machine.tape) (houtput : m.output = s.machine.output) :
    (lastMachine m done).tape = t.machine.tape ∧
      (lastMachine m done).output = t.machine.output := by
  induction h generalizing m with
  | nil => exact ⟨htape, houtput⟩
  | @cons _ s t _ _ first _ ih =>
    have hnext := step_inBounds first hs
    cases hdone : completion? p s t with
    | some c =>
      have hc : c.machine = t.machine := by
        obtain ⟨op, -, rfl⟩ := Option.map_eq_some_iff.mp hdone
        rfl
      exact ih hnext (congrArg Machine.tape hc) (congrArg Machine.output hc)
    | none =>
      have hop : p.op? s.machine.ip = none := Option.map_eq_none_iff.mp hdone
      cases does_of_step_eq first hs with
      | comment => exact ih hnext htape houtput
      | reads hop' | performs hop' =>
        rw [hop] at hop'
        cases hop'

/-- A byte that a `,` took is in the current cell of the machine after it. -/
theorem stored (h : Path p n s done t) (hs : s.machine.tape.InBounds) {c : Completion}
    (hc : c ∈ done) {value : UInt8} (htaken : c.taken = some value) :
    c.machine.tape.current? = some value := by
  induction h with
  | nil => cases hc
  | @cons _ s t _ _ first _ ih =>
    rcases List.mem_append.mp hc with hc | hc
    · obtain ⟨op, hop, rfl⟩ := Option.map_eq_some_iff.mp (Option.mem_toList.mp hc)
      cases does_of_step_eq first hs with
      | comment _ hop' =>
        rw [hop] at hop'
        cases hop'
      | @reads byte rest hop' hinput =>
        cases hop.symm.trans hop'
        obtain rfl : byte = value := by simpa [hinput] using htaken
        exact Tape.current?_set hs byte
      | performs hop' hread =>
        cases hop.symm.trans hop'
        simp [hread] at htaken
    · exact ih (step_inBounds first hs) hc

end Path

/-! ## Bytes that arrive later -/

/-- Adds bytes behind the input. -/
def feed (more : List UInt8) (s : Sequential) : Sequential :=
  { s with input := s.input ++ more }

@[simp] theorem feed_machine (more : List UInt8) (s : Sequential) :
    (s.feed more).machine = s.machine := rfl

@[simp] theorem feed_input (more : List UInt8) (s : Sequential) :
    (s.feed more).input = s.input ++ more := rfl

@[simp] theorem feed_nil (s : Sequential) : s.feed [] = s := by
  rw [feed, List.append_nil]

@[simp] theorem feed_feed (s : Sequential) (bytes more : List UInt8) :
    (s.feed bytes).feed more = s.feed (bytes ++ more) := by
  rw [feed, feed, feed, List.append_assoc]

theorem step_feed_next (more : List UInt8) (hs : s.machine.tape.InBounds)
    (h : s.step p = .next t) : (s.feed more).step p = .next (t.feed more) := by
  have does : Does p (s.feed more) (.next (t.feed more)) := by
    cases does_of_step_eq h hs with
    | comment hip hop => exact .comment hip hop
    | reads hop hinput => exact .reads hop (by simp [hinput])
    | performs hop hread hcell hmachine => exact .performs hop hread hcell hmachine
  exact does.step_eq hs

theorem completion?_feed (more : List UInt8) (hs : s.machine.tape.InBounds)
    (h : s.step p = .next t) :
    completion? p (s.feed more) (t.feed more) = completion? p s t := by
  cases does_of_step_eq h hs with
  | comment _ hop => simp [completion?, hop]
  | reads hop hinput => simp [completion?, hop, hinput]
  | performs hop hread => simp [completion?, hop, hread]

/-- An operator that fails fails whatever arrives. -/
theorem step_feed_failed (more : List UInt8) (hs : s.machine.tape.InBounds) {failure : Failure}
    (h : s.step p = .failed failure) : (s.feed more).step p = .failed failure := by
  cases does_of_step_eq h hs with
  | fails hop hread hcell hfailure =>
    exact Does.step_eq (s := s.feed more) (.fails hop hread hcell hfailure) hs

/-- A machine that lacks a byte when some have arrived lacked one before. -/
theorem step_starved_of_feed (hs : s.machine.tape.InBounds) {more : List UInt8}
    (h : (s.feed more).step p = .starved) : s.step p = .starved := by
  cases does_of_step_eq h hs with
  | starved hop hinput =>
    exact Does.step_eq (.starved hop (List.append_eq_nil_iff.mp hinput).1) hs

/-- How a run ends does not depend on the input that is left. -/
theorem Ends.of_machine {r : Result} (h : Ends p s r) (hs : s.machine.tape.InBounds)
    (ht : t.machine = s.machine) : Ends p t r := by
  obtain ⟨machine, input⟩ := t
  subst ht
  have ht : (⟨s.machine, input⟩ : Sequential).machine.tape.InBounds := hs
  cases h with
  | completed finish =>
    cases does_of_step_eq finish hs with
    | completed hip => exact .of_size_le (s := ⟨s.machine, input⟩) hip ht
  | failed failed =>
    cases does_of_step_eq failed hs with
    | fails hop hread hcell hfailure =>
      exact .failed (Does.step_eq (.fails hop hread hcell hfailure) ht)

theorem Ends.feed {r : Result} (h : Ends p s r)
    (hs : s.machine.tape.InBounds) (more : List UInt8) : Ends p (s.feed more) r :=
  h.of_machine hs rfl

theorem Path.feed (more : List UInt8) {n : Nat} {done : List Completion} (h : Path p n s done t)
    (hs : s.machine.tape.InBounds) : Path p n (s.feed more) done (t.feed more) := by
  induction h with
  | nil => exact .nil
  | cons first _ ih =>
    rw [← completion?_feed more hs first]
    exact .cons (step_feed_next more hs first) (ih (step_inBounds first hs))

end Sequential

end Brainfuck
