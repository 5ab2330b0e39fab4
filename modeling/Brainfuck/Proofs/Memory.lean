import Brainfuck.Proofs.Runs

/-!
# More memory

A run looks at the size of its tape at one place only, where `>` stands on the last cell. So with
more cells behind its own (`Machine.extend`) a machine takes the same steps, and completes the same
operators, until it comes to a `>` that its own tape has no room for: `Sequential.step_extend` says
that of one step, `Path.extend` of a path, and `System.larger_memory_agrees` of two runs of a program
on memories of different size.
-/

namespace Brainfuck

/-- The tape with so many zero cells behind its own. -/
def Tape.extend (extra : Nat) (t : Tape) : Tape :=
  { t with cells := t.cells ++ Array.replicate extra 0 }

/-- The machine with so many zero cells behind its own. -/
def Machine.extend (extra : Nat) (m : Machine) : Machine :=
  { m with tape := m.tape.extend extra }

/-- The operator with so many zero cells behind those of its machine. -/
def Completion.extend (extra : Nat) (c : Completion) : Completion :=
  { c with machine := c.machine.extend extra }

/-- The result with so many zero cells behind those of its tape. -/
def Result.extend (extra : Nat) : Result → Result
  | .done o => .done { o with tape := o.tape.extend extra }
  | r => r

/-- The future with so many zero cells behind those of its tape. -/
def Future.extend (extra : Nat) : Future → Future :=
  Future.map (Result.extend extra) id

/-! ## Tapes -/

namespace Tape

variable {t t' : Tape}

@[simp] theorem extend_pointer (extra : Nat) (t : Tape) : (t.extend extra).pointer = t.pointer := rfl

theorem extend_size (extra : Nat) (t : Tape) : (t.extend extra).size = t.size + extra := by
  simp [extend, size]

theorem InBounds.extend (h : t.InBounds) (extra : Nat) : (t.extend extra).InBounds := by
  unfold InBounds at *
  rw [extend_size]
  exact Nat.lt_add_right extra h

theorem current?_extend (h : t.InBounds) (extra : Nat) :
    (t.extend extra).current? = t.current? :=
  Array.getElem?_append_left h

theorem set_extend (h : t.InBounds) (extra : Nat) (value : UInt8) :
    (t.extend extra).set value = (t.set value).extend extra := by
  have hlt : t.pointer < t.cells.size := h
  simp [set, Tape.extend, hlt]

theorem modify_extend (h : t.InBounds) (extra : Nat) (f : UInt8 → UInt8) :
    (t.extend extra).modify f = (t.modify f).extend extra := by
  have hlt : t.pointer < t.cells.size := h
  have hlt' : t.pointer < (t.cells ++ Array.replicate extra 0).size := h.extend extra
  simp only [modify, Tape.extend]
  rw [modify_eq_set _ f hlt, modify_eq_set _ f hlt', Array.getElem_append_left hlt,
    Array.set_append_left]

theorem moveRight_extend {ip : Nat} (extra : Nat) (h : t.moveRight ip = .ok t') :
    (t.extend extra).moveRight ip = .ok (t'.extend extra) := by
  unfold moveRight at *
  split at h
  · next hlt =>
    cases h
    have hlt' : t.pointer + 1 < (t.extend extra).cells.size := by
      simp [Tape.extend]
      omega
    exact if_pos hlt'
  · cases h

theorem moveLeft_extend (ip extra : Nat) (t : Tape) :
    (t.extend extra).moveLeft ip = (t.moveLeft ip).map (Tape.extend extra) := by
  unfold moveLeft
  rw [extend_pointer]
  split <;> rfl

/-- A blank tape is a smaller one with zero cells behind its own. -/
theorem blank_extend {size : Nat} (h : blank size = .ok t) (extra : Nat) :
    blank (size + extra) = .ok (t.extend extra) := by
  unfold blank at *
  split at h
  · cases h
  · next hsize =>
    cases h
    rw [if_neg (by omega)]
    simp [Tape.extend, Array.replicate_append_replicate]

end Tape

/-! ## Machines -/

namespace Machine

variable {p : Program} {cell : UInt8} {m m' : Machine} {op : Op}

theorem start_extend {memory : Nat} (h : start memory = .ok m) (extra : Nat) :
    start (memory + extra) = .ok (m.extend extra) := by
  obtain ⟨tape, htape, rfl⟩ := start_eq_ok h
  rw [start, Tape.blank_extend htape]
  rfl

/-- All operators but `>` do the same when there are more cells, also where they fail. -/
theorem perform_extend_of_ne (h : m.tape.InBounds) (extra : Nat) (hop : op ≠ .right) :
    (m.extend extra).perform p cell op = (m.perform p cell op).map (extend extra) := by
  obtain ⟨tape, output, ip⟩ := m
  cases op with
  | right => exact absurd rfl hop
  | left =>
    simp only [perform, extend, Tape.moveLeft_extend]
    cases tape.moveLeft ip <;> rfl
  | increment =>
    simp only [perform, extend, Tape.increment, Tape.modify_extend h]
    rfl
  | decrement =>
    simp only [perform, extend, Tape.decrement, Tape.modify_extend h]
    rfl
  | print | read => rfl
  | openLoop =>
    simp only [perform, extend]
    split
    · cases p.loopExit ip <;> rfl
    · rfl
  | closeLoop =>
    simp only [perform, extend]
    split
    · rfl
    · cases p.loopEntry ip <;> rfl

/-- An operator that a machine carries out does the same when there are more cells. -/
theorem perform_extend (h : m.tape.InBounds) (extra : Nat) (hm : m.perform p cell op = .ok m') :
    (m.extend extra).perform p cell op = .ok (m'.extend extra) := by
  by_cases hop : op = .right
  · subst hop
    obtain ⟨tape, output, ip⟩ := m
    simp only [perform] at hm
    split at hm
    · next tape' htape =>
      cases hm
      simp only [perform, extend, Tape.moveRight_extend extra htape]
    · cases hm
  · rw [perform_extend_of_ne h extra hop, hm]
    rfl

/-- What `>` fails with. -/
theorem perform_right_eq_error {failure : Failure} (hm : m.perform p cell .right = .error failure) :
    failure = .fault (.offTape m.ip m.tape.pointer '>') := by
  obtain ⟨tape, output, ip⟩ := m
  simp only [perform, Tape.moveRight] at hm
  split at hm
  · cases hm
  · next cause htape =>
    split at htape <;> cases htape
    cases hm
    rfl

end Machine

/-! ## Steps and paths -/

namespace Sequential

variable {p : Program} {s t : Sequential} {n extra : Nat} {done : List Completion}

/-- The machine with so many zero cells behind its own, and the same input. -/
def extend (extra : Nat) (s : Sequential) : Sequential :=
  { s with machine := s.machine.extend extra }

theorem step_extend (extra : Nat) (hs : s.machine.tape.InBounds) (h : s.step p = .next t) :
    (s.extend extra).step p = .next (t.extend extra) := by
  have does : Does p (s.extend extra) (.next (t.extend extra)) := by
    cases does_of_step_eq h hs with
    | comment hip hop => exact .comment hip hop
    | @reads value rest hop hinput =>
      have hmachine : (s.machine.extend extra).accept value =
          (s.machine.accept value).extend extra :=
        congrArg (fun tape => Machine.mk tape _ _) (Tape.set_extend hs extra value)
      have reads : Does p (s.extend extra) (.next ⟨(s.machine.extend extra).accept value, rest⟩) :=
        .reads hop hinput
      rwa [hmachine] at reads
    | performs hop hread hcell hmachine =>
      exact .performs hop hread ((Tape.current?_extend hs extra).trans hcell)
        (Machine.perform_extend hs extra hmachine)
  exact does.step_eq (hs.extend extra)

theorem completion?_extend (p : Program) (extra : Nat) (s t : Sequential) :
    completion? p (s.extend extra) (t.extend extra) =
      (completion? p s t).map (Completion.extend extra) := by
  unfold completion?
  rw [Option.map_map]
  rfl

/-- With more cells a machine takes the same steps. -/
theorem Path.extend (extra : Nat) (h : Path p n s done t) (hs : s.machine.tape.InBounds) :
    Path p n (s.extend extra) (done.map (Completion.extend extra)) (t.extend extra) := by
  induction h with
  | nil => exact .nil
  | @cons _ s t _ _ first _ ih =>
    rw [List.map_append, ← Option.toList_map, ← completion?_extend]
    exact .cons (step_extend extra hs first) (ih (step_inBounds first hs))

/-- With more cells a machine halts where it does without them, but for a `>` on the last cell. -/
theorem Halts.extend {f : Future} (extra : Nat) (hs : s.machine.tape.InBounds) (h : Halts p s f)
    (hright : ∀ ip pointer, f ≠ .returns (.failed (.offTape ip pointer '>'))) :
    Halts p (s.extend extra) (f.extend extra) := by
  cases h with
  | starves starved =>
    cases does_of_step_eq starved hs with
    | starved hop hinput =>
      exact .starves (s := s.extend extra) (Does.step_eq (.starved hop hinput) (hs.extend extra))
  | ends ends =>
    cases ends with
    | completed finish =>
      cases does_of_step_eq finish hs with
      | completed hip =>
        exact .ends (.of_size_le (s := s.extend extra) hip (hs.extend extra))
    | @failed failure failed =>
      cases does_of_step_eq failed hs with
      | @fails op cell _ hop hread hcell hfailure =>
        have hne : op ≠ .right := by
          rintro rfl
          obtain rfl := Machine.perform_right_eq_error hfailure
          exact hright _ _ rfl
        have hperform : (s.machine.extend extra).perform p cell op = .error failure := by
          rw [Machine.perform_extend_of_ne hs extra hne, hfailure]
          rfl
        have hstep : (s.extend extra).step p = .failed failure :=
          Does.step_eq (.fails hop hread ((Tape.current?_extend hs extra).trans hcell) hperform)
            (hs.extend extra)
        have hsame : (Result.ofFailure failure).extend extra = .ofFailure failure := by
          cases failure <;> rfl
        rw [Future.extend, Future.map, hsame]
        exact .ends (.failed hstep)

theorem tracks_extend (p : Program) (extra : Nat) :
    Tracks p p fun m m' => m.tape.InBounds ∧ m' = m.extend extra := by
  refine ⟨?_⟩
  rintro m _ input u ⟨hm, rfl⟩ hnext
  have path := Path.single (step_extend extra (s := ⟨m, input⟩) hm hnext)
  exact ⟨0, _, _, path, step_inBounds hnext hm, rfl⟩

end Sequential

/-- What becomes of a machine becomes of it with more cells too, unless it comes to a `>` on its last
cell. -/
theorem Machine.Meets.extend {p : Program} {stream : ByteStream} {m : Machine} {f : Future}
    (extra : Nat) (hm : m.tape.InBounds) (h : m.Meets p stream f)
    (hright : ∀ ip pointer, f ≠ .returns (.failed (.offTape ip pointer '>'))) :
    (m.extend extra).Meets p stream (f.extend extra) := by
  refine (Sequential.tracks_extend p extra).meets ⟨hm, rfl⟩ h _ _ ?_
  rintro u _ input ⟨hu, rfl⟩ halts
  exact ⟨0, [], _, .nil, halts.extend extra hu hright⟩

/-! ## Runs -/

namespace System

variable {N M index index' : Nat} {program : Program} {stream : ByteStream}
  {sched sched' : Nat → Act} {s s' : System}

/-- Of two runs of a program on the same input the one with more memory does what the other does,
with zero cells behind the other's tape, as long as that one does not fail at a `>`: it returns the
same result, waits at the same `,`, or goes on without end. It comes to every machine that the other
run comes to, with the same operators completed before it. So it also does when that run fails at a
`>`, and then it gets as far as that operator: the other run stands at it, on its last cell, and
completes nothing more. -/
theorem larger_memory_agrees (hle : N ≤ M) (h : s.Runs N program index stream sched)
    (h' : s'.Runs M program index' stream sched') :
    ∃ f, s.Destined index sched f ∧
      ((∀ ip pointer, f ≠ .returns (.failed (.offTape ip pointer '>'))) →
        s'.Destined index' sched' (f.extend (M - N))) ∧
      (∀ time m, (s.after (upTo sched time)).machine? index = some m →
        ∃ time', (s'.after (upTo sched' time')).machine? index' = some (m.extend (M - N)) ∧
          s'.completions index' (upTo sched' time') =
            (s.completions index (upTo sched time)).map (Completion.extend (M - N))) ∧
      ∀ ip pointer, f = .returns (.failed (.offTape ip pointer '>')) →
        pointer = N - 1 ∧ program.op? ip = some .right ∧
        ∃ time m, (s.after (upTo sched time)).machine? index = some m ∧ m.ip = ip ∧
          m.tape.pointer = pointer ∧ ∀ later, s.completions index (upTo sched later) <+:
            s.completions index (upTo sched time) := by
  obtain ⟨m, hstart⟩ := h.exists_start
  have hm := Machine.start_inBounds hstart
  have hstart' : Machine.start M = .ok (m.extend (M - N)) := by
    have hextend := Machine.start_extend hstart (M - N)
    rwa [Nat.add_sub_of_le hle] at hextend
  obtain ⟨f, hmeets, hdestined⟩ := h.exists_destined hstart
  refine ⟨f, hdestined, fun hright =>
    (h'.pursues hstart').destined (hmeets.extend _ hm hright), ?_, ?_⟩
  · intro time m₁ hm₁
    obtain ⟨n, k, t, path, hmachine⟩ := h.exists_path hstart time
    rw [← hmachine m₁ hm₁]
    exact (h'.pursues hstart').exists_machine (path.extend (M - N) hm)
  · rintro ip pointer rfl
    cases hmeets with
    | halts path halts all =>
      cases halts with
      | ends ends =>
        obtain ⟨cause, hcause, fails⟩ := (Sequential.step_eq_failed_iff (path.inBounds hm)
          ((path.size_eq hm).trans (Machine.start_size hstart))).mp
          (Sequential.ends_failed_iff.mp ends)
        obtain rfl : Fault.offTape ip pointer '>' = cause := Failure.fault.inj hcause
        obtain ⟨time, hmachine, hdone⟩ := (h.pursues hstart).exists_machine path
        generalize hop : '>' = c at fails
        cases fails with
        | left => exact absurd hop (by decide)
        | right op edge =>
          refine ⟨rfl, op, time, _, hmachine, rfl, edge, fun later => ?_⟩
          rw [hdone]
          exact h.completions_prefix hstart path ends later

/-- A byte that is read into the last cell of two, and into the last but one of three. -/
theorem larger_memory_agrees_of_two_cells :
    let program : Program := .ofChars ['>', ',', '<']
    let sched := eager 0 [7]
    (cleared 2 program).Runs 2 program 0 (.ofList [7]) sched ∧
      (cleared 3 program).Runs 3 program 0 (.ofList [7]) sched ∧
      (cleared 2 program).Destined 0 sched
        (.returns (.done ⟨#[], .completed, ⟨#[0, 7], 0⟩⟩)) ∧
      (cleared 3 program).Destined 0 sched
        (.returns (.done ⟨#[], .completed, ⟨#[0, 7, 0], 0⟩⟩)) := by
  intro program sched
  have h : (cleared 2 program).Runs 2 program 0 (.ofList [7]) sched := runs_eager (by decide) _ _
  have h' : (cleared 3 program).Runs 3 program 0 (.ofList [7]) sched := runs_eager (by decide) _ _
  have hr : ((cleared 2 program).after (upTo sched 12)).result? 0 =
      some (.done ⟨#[], .completed, ⟨#[0, 7], 0⟩⟩) := by decide
  obtain ⟨f, hf, hagrees, -⟩ := larger_memory_agrees (by decide) h h'
  obtain rfl := (hf _).mp (h.meets_of_result hr)
  exact ⟨h, h', hf, hagrees (by simp)⟩

end System

end Brainfuck
