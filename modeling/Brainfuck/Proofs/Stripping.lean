import Brainfuck.Program.Comments
import Brainfuck.Proofs.Runs
import Brainfuck.Proofs.Windows

/-!
# Comments do not matter

A text is a window for its operators alone (`Program.window_strip`): its comments are what that window
drops. So a run of the text does what a run of its operators does, and where that one points at
operator number `k`, at a fault or at a `,`, it points at the position of operator number `k` in the
text (`System.comments_do_not_matter`). Nothing is asked of the brackets, nor of the characters that
the comments consist of: positions are counted in characters.
-/

namespace Brainfuck

namespace Program

variable {source : List Char} {ip : Nat}

/-- How many operators stand before a position. -/
def rank (source : List Char) (ip : Nat) : Nat :=
  (strip (source.take ip)).length

/-- Where operator number `k` stands, and the end of the text if there are fewer. -/
def place (source : List Char) (k : Nat) : Nat :=
  (positions source).getD k source.length

theorem positionsFrom_append (xs ys : List Char) (pos : Nat) :
    positionsFrom pos (xs ++ ys) =
      positionsFrom pos xs ++ positionsFrom (pos + xs.length) ys := by
  induction xs generalizing pos with
  | nil => rfl
  | cons x xs ih =>
    rw [List.cons_append, positionsFrom, positionsFrom, ih, List.length_cons, Nat.add_assoc,
      Nat.add_comm 1]
    split <;> rfl

theorem isOperator_eq_false_iff {c : Char} : isOperator c = false ↔ Op.ofChar? c = none := by
  rw [isOperator, Option.isSome_eq_false_iff, Option.isNone_iff_eq_none]

/-- A position of the text is that of an operator or of a comment. -/
theorem kept_or_dropped_strip (hip : ip < source.length) :
    Kept (ofChars (strip source)) (ofChars source) (rank source) (place source) ip ∨
      (ofChars source).op? ip = none ∧ rank source (ip + 1) = rank source ip := by
  -- the text is what stands before the character, the character, and the rest
  obtain ⟨before, c, rest, rfl, rfl⟩ : ∃ before c rest,
      source = before ++ c :: rest ∧ ip = before.length := by
    refine ⟨source.take ip, source[ip], source.drop (ip + 1), ?_, ?_⟩
    · rw [← List.drop_eq_getElem_cons hip, List.take_append_drop]
    · rw [List.length_take, Nat.min_eq_left (Nat.le_of_lt hip)]
  have hrank : rank (before ++ c :: rest) before.length = (strip before).length := by
    rw [rank, List.take_left]
  have hnext : rank (before ++ c :: rest) (before.length + 1) = (strip (before ++ [c])).length := by
    rw [rank, List.append_cons, List.take_left' (by simp)]
  have hop : (ofChars (before ++ c :: rest)).op? before.length = Op.ofChar? c := by
    simp
  cases hc : isOperator c with
  | true =>
    refine .inl ⟨?_, ?_, ?_⟩
    · rw [hop, hrank, op?_ofChars]
      simp [strip, hc]
    · rw [hrank, hnext]
      simp [strip, hc]
    · have hpositions : positions (before ++ c :: rest) =
          positionsFrom 0 before ++ before.length :: positionsFrom (before.length + 1) rest := by
        rw [positions, positionsFrom_append, Nat.zero_add, positionsFrom, if_pos hc]
      rw [place, hrank, hpositions, ← length_positionsFrom before 0]
      simp
  | false =>
    refine .inr ⟨?_, ?_⟩
    · rw [hop]
      exact isOperator_eq_false_iff.mp hc
    · rw [hrank, hnext]
      simp [strip, hc]

/-- A text is its operators and comments between them. -/
theorem window_strip (source : List Char) :
    (ofChars (strip source)).Window (ofChars source) 0 source.length (rank source)
      (place source) where
  le := Nat.zero_le _
  le_size := Nat.le_of_eq (size_ofChars source).symm
  first := rfl
  last := by rw [rank, List.take_length, size_ofChars]
  each _ hip := kept_or_dropped_strip hip
  before _ := rfl
  behind := .inl (scanRight_of_size_le (Nat.le_of_eq (size_ofChars source)))

end Program

/-- What becomes of a machine points at an operator of its program, if at anything. -/
theorem Machine.Meets.lt_size {p : Program} {stream : ByteStream} {m : Machine} {f : Future}
    (h : m.Meets p stream f) (hm : m.tape.InBounds) {k : Nat} (hk : f.ip? = some k) :
    k < p.size := by
  cases h with
  | endless => cases hk
  | @halts n i done t f path halts all =>
    have ht := path.inBounds hm
    cases halts with
    | starves starved =>
      cases Sequential.does_of_step_eq starved ht with
      | starved hop => exact Option.some.inj hk ▸ Program.lt_size_of_op?_eq_some hop
    | ends ends =>
      cases ends with
      | completed => cases hk
      | failed failed =>
        obtain ⟨cause, rfl, fails⟩ := (Sequential.step_eq_failed_iff ht rfl).mp failed
        obtain ⟨op, hop, blames⟩ := fails.blames
        have hip : cause.ip? = some t.machine.ip := by
          generalize t.machine.ip = ip at blames
          cases blames <;> rfl
        exact Option.some.inj (hip.symm.trans hk) ▸ Program.lt_size_of_op?_eq_some hop

namespace System

variable {memory index index' : Nat} {source : String} {stream : ByteStream}
  {sched sched' : Nat → Act} {s s' : System}

/-- Comments do not matter. Of two runs on the same input and memory, one of a text and one of its
operators alone, the first does what the second does: it returns the same output, termination and
tape, or the same fault but for its position, it waits at the same `,`, or it goes on without end.
Where the second run points at operator number `k`, the first points at the position of operator
number `k` in the text. -/
theorem comments_do_not_matter
    (h : s.Runs memory (Program.ofString source) index stream sched)
    (h' : s'.Runs memory (Program.ofString (String.ofList (Program.strip source.toList))) index'
      stream sched') :
    ∃ f, s'.Destined index' sched' f ∧
      s.Destined index sched (f.relocate (Program.place source.toList)) ∧
      ∀ k, f.ip? = some k →
        (Program.positions source.toList)[k]? = some (Program.place source.toList k) := by
  rw [Program.ofString, String.toList_ofList] at h'
  obtain ⟨m, hstart⟩ := h.exists_start
  have hm := Machine.start_inBounds hstart
  obtain ⟨tape, -, rfl⟩ := Machine.start_eq_ok hstart
  obtain ⟨f, hmeets, hdestined⟩ := h'.exists_destined hstart
  have window := Program.window_strip source.toList
  have hinside : Program.Window.Inside 0 source.toList.length (Program.rank source.toList)
      ⟨tape, #[], 0⟩ ⟨tape, #[], 0⟩ := ⟨rfl, Nat.le_refl 0, Nat.zero_le _, hm⟩
  refine ⟨f, hdestined, ?_, fun k hk => ?_⟩
  · refine (h.pursues hstart).destined (window.meets hinside hmeets (.inl ?_))
    exact (Program.size_ofChars _).symm
  · have hlt := hmeets.lt_size hm hk
    rw [Program.size_ofChars, ← Program.length_positions] at hlt
    rw [Program.place, List.getD_eq_getElem?_getD, List.getElem?_eq_getElem hlt]
    rfl

/-- A `]` without a partner behind a letter of two bytes and another comment: it is operator number 1
and stands at position 3. -/
theorem comments_do_not_matter_of_stray :
    let source := "é+x]"
    let stripped := String.ofList (Program.strip source.toList)
    let sched := eager 0 []
    (cleared 1 (.ofString source)).Runs 1 (.ofString source) 0 (.ofList []) sched ∧
      (cleared 1 (.ofString stripped)).Runs 1 (.ofString stripped) 0 (.ofList []) sched ∧
      (cleared 1 (.ofString stripped)).Destined 0 sched
        (.returns (.failed (.unmatched 1 .closing))) ∧
      (cleared 1 (.ofString source)).Destined 0 sched
        (.returns (.failed (.unmatched 3 .closing))) := by
  intro source stripped sched
  have h : (cleared 1 (.ofString source)).Runs 1 (.ofString source) 0 (.ofList []) sched :=
    runs_eager (by decide) _ _
  have h' : (cleared 1 (.ofString stripped)).Runs 1 (.ofString stripped) 0 (.ofList []) sched :=
    runs_eager (by decide) _ _
  have hr : ((cleared 1 (.ofString stripped)).after (upTo sched 8)).result? 0 =
      some (.failed (.unmatched 1 .closing)) := by decide
  obtain ⟨f, hf, hagrees, -⟩ := comments_do_not_matter h h'
  obtain rfl := (hf _).mp (h'.meets_of_result hr)
  have hplace : Program.place source.toList 1 = 3 := by decide
  rw [Future.relocate, Future.map, Result.relocate, Fault.relocate, hplace] at hagrees
  exact ⟨h, h', hf, hagrees⟩

end System

end Brainfuck
