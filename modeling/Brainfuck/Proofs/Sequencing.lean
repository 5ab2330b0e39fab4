import Brainfuck.Proofs.Runs
import Brainfuck.Proofs.Windows

/-!
# One text after another

Where a text whose brackets match is followed by another, both are windows of the whole: every bracket
of the first finds its partner inside it, and a search to the left that comes from the second passes
all of the first and finds nothing. So the whole does what the first does, and when that completes it
goes on as the second does on the tape, with the output and with the input that the first has left
(`System.one_after_the_other`).
-/

namespace Brainfuck

theorem Future.relocate_id (f : Future) : f.relocate id = f := by
  obtain r | _ | _ := f
  · obtain _ | cause | _ := r
    · rfl
    · cases cause <;> rfl
    · rfl
  · rfl
  · rfl

namespace Program

variable {first : List Char} {ip : Nat}

theorem op?_append_left (second : List Char) (hip : ip < first.length) :
    (ofChars (first ++ second)).op? ip = (ofChars first).op? ip := by
  rw [op?_ofChars, op?_ofChars, List.getElem?_append_left hip]

theorem op?_append_right (second : List Char) (hip : first.length ≤ ip) :
    (ofChars (first ++ second)).op? ip = (ofChars second).op? (ip - first.length) := by
  rw [op?_ofChars, op?_ofChars, List.getElem?_append_right hip]

theorem window_first (hfirst : Balanced first) (second : List Char) :
    (ofChars first).Window (ofChars (first ++ second)) 0 first.length id id where
  le := Nat.zero_le _
  le_size := by simp
  first := rfl
  last := (size_ofChars first).symm
  each _ hip := .inl ⟨(op?_append_left second hip).symm, rfl, rfl⟩
  before _ := rfl
  behind := .inr fun k hop hnone => hfirst.not_unclosed hop (scanRight_eq_none_iff.mp hnone)

theorem window_second (hfirst : Balanced first) (second : List Char) :
    (ofChars second).Window (ofChars (first ++ second)) first.length (first ++ second).length
      (· - first.length) (first.length + ·) where
  le := by simp
  le_size := by simp
  first := Nat.sub_self _
  last := by simp
  each hlo _ := .inl ⟨(op?_append_right second hlo).symm, by omega, by omega⟩
  before depth := by
    -- no end of the first text opens more loops than it closes
    rw [openBefore_eq_none_iff]
    intro text htext
    have htake : (ofChars (first ++ second)).ops.toList.take first.length =
        (ofChars first).ops.toList := by
      have hops : (ofChars (first ++ second)).ops.toList =
          (ofChars first).ops.toList ++ (ofChars second).ops.toList := List.map_append
      rw [hops]
      exact List.take_left' (size_ofChars first)
    rw [htake] at htext
    exact Nat.le_add_right_of_le (hfirst.count_openLoop_le htext)
  behind := .inl (scanRight_of_size_le (Nat.le_of_eq (size_ofChars _)))

/-- The search from a `[` in the first text finds its `]` there, whatever follows the text. -/
theorem loopExit_append_left (hfirst : Balanced first) (second : List Char)
    (hop : (ofChars first).op? ip = some .openLoop) : ∃ close, close < first.length ∧
      (ofChars first).loopExit ip = .ok close ∧
      (ofChars (first ++ second)).loopExit ip = .ok close := by
  have hip : ip < first.length := by
    have hlt := lt_size_of_op?_eq_some hop
    rwa [size_ofChars] at hlt
  rcases (window_first hfirst second).loopExit (Nat.zero_le ip) hip
    ((op?_append_left second hip).trans hop) with ⟨close, -, hclose, -, hexit, hexit'⟩ |
    ⟨failure, hfailure, -⟩
  · exact ⟨close, hclose, hexit', hexit⟩
  · exact absurd (loopExit_eq_error_iff.mp hfailure).2 (hfirst.not_unclosed hop)

/-- The search from a `]` in the first text finds its `[` there, whatever follows the text. -/
theorem loopEntry_append_left (hfirst : Balanced first) (second : List Char)
    (hop : (ofChars first).op? ip = some .closeLoop) : ∃ start, start < first.length ∧
      (ofChars first).loopEntry ip = .ok start ∧
      (ofChars (first ++ second)).loopEntry ip = .ok start := by
  have hlt := lt_size_of_op?_eq_some hop
  have hip : ip < first.length := by rwa [size_ofChars] at hlt
  rcases (window_first hfirst second).loopEntry (Nat.zero_le ip) hip
    ((op?_append_left second hip).trans hop) with ⟨start, -, hstart, -, hentry, hentry'⟩ |
    ⟨failure, hfailure, -⟩
  · exact ⟨start, hstart, hentry', hentry⟩
  · exact absurd ((loopEntry_eq_error_iff (Nat.le_of_lt hlt)).mp hfailure).2
      (hfirst.not_unopened hop)

/-- The search from a `]` in the second text passes all of the first. -/
theorem loopEntry_append_right (hfirst : Balanced first) {second : List Char} {failure : Failure}
    (hop : (ofChars second).op? ip = some .closeLoop)
    (hentry : (ofChars second).loopEntry ip = .error failure) :
    (ofChars (first ++ second)).loopEntry (first.length + ip) =
      .error (failure.relocate (first.length + ·)) := by
  have hlt := lt_size_of_op?_eq_some hop
  have hip : first.length + ip < (first ++ second).length := by
    rw [size_ofChars] at hlt
    rw [List.length_append]
    omega
  have hlo : first.length ≤ first.length + ip := Nat.le_add_right ..
  have hback : first.length + ip - first.length = ip := Nat.add_sub_cancel_left ..
  rcases (window_second hfirst second).loopEntry hlo hip
    ((op?_append_right second hlo).trans (by rwa [hback])) with ⟨start, -, -, -, -, hentry'⟩ |
    ⟨failure', hentry', hfails⟩
  · rw [hback, hentry] at hentry'
    cases hentry'
  · rw [hback, hentry] at hentry'
    cases hentry'
    exact hfails

end Program

/-! ## Machines -/

namespace Machine

variable {first second : List Char} {stream : ByteStream} {m : Machine} {f : Future}

/-- Where the first text does not come to its end, the whole does the same. -/
theorem Meets.append_left (hfirst : Balanced first) (second : List Char) (hm : m.tape.InBounds)
    (hip : m.ip = 0) (h : m.Meets (.ofChars first) stream f) (hopen : ∀ o, f ≠ .returns (.done o)) :
    m.Meets (.ofChars (first ++ second)) stream f := by
  have hinside : Program.Window.Inside 0 first.length id m m :=
    ⟨rfl, Nat.zero_le _, by omega, hm⟩
  have hmeets := (Program.window_first hfirst second).meets hinside h (.inr hopen)
  rwa [Future.relocate_id] at hmeets

/-- Where the first text comes to its end, the whole goes on as the second does. -/
theorem Meets.append_right (hfirst : Balanced first) {n k : Nat} {done : List Completion}
    {t : Sequential} (hm : m.tape.InBounds) (hip : m.ip = 0)
    (path : Sequential.Path (.ofChars first) n ⟨m, stream.take k⟩ done t)
    (hend : first.length ≤ t.machine.ip)
    (h : (⟨t.machine.tape, t.machine.output, 0⟩ : Machine).Meets (.ofChars second)
      (stream.drop (takenBytes done).length) f) :
    m.Meets (.ofChars (first ++ second)) stream (f.relocate (first.length + ·)) := by
  have hinside : Program.Window.Inside 0 first.length id m m :=
    ⟨rfl, Nat.zero_le _, by omega, hm⟩
  obtain ⟨n', done', machine, -, path', hinside'⟩ :=
    (Program.window_first hfirst second).tracks.path path hinside
  obtain rfl : machine = t.machine := hinside'.eq.symm
  -- both paths leave the same input, so they have taken the same bytes
  have htaken : takenBytes done' = takenBytes done :=
    List.append_cancel_right ((path'.input_eq hm).symm.trans (path.input_eq hm))
  have hip' : t.machine.ip = first.length := Nat.le_antisymm hinside'.le_hi hend
  have hback : (⟨t.machine.tape, t.machine.output, 0⟩ : Machine) =
      t.machine.move (· - first.length) := by
    rw [move, hip', Nat.sub_self]
  have hinside'' : Program.Window.Inside first.length (first ++ second).length (· - first.length)
      ⟨t.machine.tape, t.machine.output, 0⟩ t.machine := by
    refine ⟨hback, hend, ?_, hinside'.inBounds⟩
    rw [hip', List.length_append]
    exact Nat.le_add_right ..
  have hmeets := (Program.window_second hfirst second).meets hinside'' h
    (.inl (Program.size_ofChars _).symm)
  rw [← htaken] at hmeets
  exact .of_path path' hm hmeets

end Machine

/-! ## Runs -/

namespace System

variable {memory index index' : Nat} {first second : String} {stream : ByteStream}
  {sched sched' : Nat → Act} {s s' : System}

/-- One text after another. Take a run of a text whose brackets match, and on the same input and
memory a run of that text followed by any other. Where the first run fails, waits or goes on without
end, the second does the same. Where the first comes to the end of its text, having taken some bytes,
the second does what the second text does that is put to work on the tape and the output of the first
run and on the rest of the input, and the position that it points at, if any, is that of the second
text moved by the length of the first. The brackets of the first text find their partners inside it
also when the other follows, and a `]` of the second text that has no `[` there has none in the
whole. -/
theorem one_after_the_other (hfirst : Balanced first.toList)
    (h : s.Runs memory (.ofString first) index stream sched)
    (h' : s'.Runs memory (.ofString (first ++ second)) index' stream sched') :
    ∃ f, s.Destined index sched f ∧
      ((∀ o, f ≠ .returns (.done o)) → s'.Destined index' sched' f) ∧
      (∀ o, f = .returns (.done o) → o.termination = .completed ∧
        ∃ taken rest, (∃ time, ∀ later, time ≤ later →
            s.popped index (upTo sched later) = taken) ∧
          taken = stream.take taken.length ∧
          s'.Destined index' sched' (rest.relocate (first.length + ·)) ∧
          ∀ queue again, Steady 0 again →
            (resume memory (.ofString second) ⟨o.tape, o.output, 0⟩ queue).Receives
              (stream.drop taken.length) again →
            (resume memory (.ofString second) ⟨o.tape, o.output, 0⟩ queue).Destined 0 again rest) ∧
      (∀ ip, (Program.ofString first).op? ip = some .openLoop → ∃ close, close < first.length ∧
        (Program.ofString first).loopExit ip = .ok close ∧
        (Program.ofString (first ++ second)).loopExit ip = .ok close) ∧
      (∀ ip, (Program.ofString first).op? ip = some .closeLoop → ∃ start, start < first.length ∧
        (Program.ofString first).loopEntry ip = .ok start ∧
        (Program.ofString (first ++ second)).loopEntry ip = .ok start) ∧
      ∀ ip, (Program.ofString second).op? ip = some .closeLoop →
        (Program.ofString second).loopEntry ip = .error (.fault (.unmatched ip .closing)) →
        (Program.ofString (first ++ second)).loopEntry (first.length + ip) =
          .error (.fault (.unmatched (first.length + ip) .closing)) := by
  have hwhole : Program.ofString (first ++ second) = .ofChars (first.toList ++ second.toList) := by
    rw [Program.ofString, String.toList_append]
  rw [hwhole] at h' ⊢
  rw [← String.length_toList]
  obtain ⟨m, hstart⟩ := h.exists_start
  have hm := Machine.start_inBounds hstart
  have hip : m.ip = 0 := by
    obtain ⟨tape, -, rfl⟩ := Machine.start_eq_ok hstart
    rfl
  obtain ⟨f, hmeets, hdestined⟩ := h.exists_destined hstart
  refine ⟨f, hdestined, fun hopen => ?_, ?_,
    fun ip => Program.loopExit_append_left hfirst second.toList,
    fun ip => Program.loopEntry_append_left hfirst second.toList,
    fun ip => Program.loopEntry_append_right hfirst⟩
  · exact (h'.pursues hstart).destined (hmeets.append_left hfirst second.toList hm hip hopen)
  · rintro o rfl
    cases hmeets with
    | @halts n k done t _ path halts all =>
      cases halts with
      | ends ends =>
        obtain ⟨time, hpopped⟩ := h.eventually_completes hstart path ends
        obtain ⟨hend, rfl⟩ := ends.of_done (path.inBounds hm)
        have hleft : (⟨t.machine.tape, t.machine.output, 0⟩ : Machine).tape.InBounds :=
          path.inBounds hm
        obtain ⟨rest, hrest⟩ := Machine.exists_meets (.ofString second)
          (stream.drop (takenBytes done).length) hleft
        refine ⟨(Machine.outcome_termination_iff _ _).mpr hend, takenBytes done, rest,
          ⟨time, fun later hlater => (hpopped later hlater).2⟩, (path.take_eq hm).1, ?_, ?_⟩
        · rw [Program.ofString, Program.size_ofChars] at hend
          exact (h'.pursues hstart).destined (.append_right hfirst hm hip path hend hrest)
        · intro queue again hsteady hreceives
          exact (pursues_resume hleft hsteady hreceives).destined hrest

/-- A text that reads a byte, followed by one that prints it and has a `]` too many. On the tape of
the first the second fails at its position 1, which is position 5 of the whole. -/
theorem one_after_the_other_of_stray :
    let first := "[-],"
    let second := ".]"
    let sched := eager 0 [7]
    let left := resume 1 (.ofString second) ⟨⟨#[7], 0⟩, #[], 0⟩ .empty
    Balanced first.toList ∧ (cleared 1 (.ofString first)).Runs 1 (.ofString first) 0
        (.ofList [7]) sched ∧
      (cleared 1 (.ofString (first ++ second))).Runs 1 (.ofString (first ++ second)) 0
        (.ofList [7]) sched ∧
      (cleared 1 (.ofString first)).Destined 0 sched
        (.returns (.done ⟨#[], .completed, ⟨#[7], 0⟩⟩)) ∧
      left.Destined 0 (eager 0 []) (.returns (.failed (.unmatched 1 .closing))) ∧
      (cleared 1 (.ofString (first ++ second))).Destined 0 sched
        (.returns (.failed (.unmatched 5 .closing))) := by
  intro first second sched left
  have balanced : Balanced first.toList := by decide
  have h : (cleared 1 (.ofString first)).Runs 1 (.ofString first) 0 (.ofList [7]) sched :=
    runs_eager (by decide) _ _
  have h' : (cleared 1 (.ofString (first ++ second))).Runs 1 (.ofString (first ++ second)) 0
      (.ofList [7]) sched := runs_eager (by decide) _ _
  obtain ⟨f, hf, -, hdone, -⟩ := one_after_the_other balanced h h'
  have hr : ((cleared 1 (.ofString first)).after (upTo sched 12)).result? 0 =
      some (.done ⟨#[], .completed, ⟨#[7], 0⟩⟩) := by decide
  obtain rfl := (hf _).mp (h.meets_of_result hr)
  obtain ⟨-, taken, rest, ⟨time, hpopped⟩, htaken, hwhole, hrest⟩ := hdone _ rfl
  -- the first run has taken the byte
  have hread : (cleared 1 (.ofString first)).popped 0 (upTo sched 12) = [7] := by decide
  have hlength : 1 ≤ taken.length := by
    have hall := hpopped (12 + time) (Nat.le_add_left ..)
    rw [upTo_add, popped, collect_append, ← popped, hread] at hall
    rw [← hall]
    exact Nat.le_add_left ..
  rw [ByteStream.take_ofList, List.take_of_length_le hlength] at htaken
  subst htaken
  rw [ByteStream.drop_ofList] at hrest
  -- the second starts on an empty queue, and its `]` has no partner
  have hleft := hrest .empty (eager 0 []) (steady_eager 0 []) (receives_eager left 0 [])
  have hstray : (left.after (upTo (eager 0 []) 12)).stage? 0 =
      some (.closing (.failed (.unmatched 1 .closing)) 0) := by decide
  obtain rfl := (hleft _).mp (exclusive_resume.meets_of_closing hstray)
  have hplace : Future.relocate (first.length + ·)
      (.returns (.failed (.unmatched 1 .closing))) =
        .returns (.failed (.unmatched 5 .closing)) := by decide
  exact ⟨balanced, h, h', hf, hleft, hplace ▸ hwhole⟩

end System

end Brainfuck
