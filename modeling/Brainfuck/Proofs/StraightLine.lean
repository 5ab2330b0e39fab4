import Brainfuck.Proofs.ClosedForm
import Brainfuck.Proofs.Runs
import Brainfuck.Proofs.Sink

/-!
# Texts without loops

A text that has no brackets is carried out once from its first position to its last, or up to the
first move that leaves the tape, and the machine that comes to position `k` is given by counting
characters: `machineAt` puts together what `drift`, `cellAt` and `printed` say. One step leads from
each of these machines to the next (`step_stateAt`), by one case for each operator, so the path to
any position is an induction on it. With `Machine.Meets.halts` that is what becomes of a run
(`System.straight_line_has_closed_form`).
-/

namespace Brainfuck

namespace StraightLine

variable {memory pointer k n : Nat} {source : List Char} {input : List UInt8} {ch : Char}
  {cause : Fault} {op : Op}

/-- Up to position `k` the pointer is on a tape of so many cells. -/
def StaysOn (memory : Nat) (source : List Char) (k : Nat) : Prop :=
  ∀ j ≤ k, 0 ≤ drift source j ∧ drift source j < memory

instance (memory : Nat) (source : List Char) (k : Nat) : Decidable (StaysOn memory source k) :=
  inferInstanceAs (Decidable (∀ j ≤ k, _))

/-- The move at position `k` leaves a tape of so many cells, with this fault. -/
inductive Leaves (memory : Nat) (source : List Char) (k : Nat) : Fault → Prop where
  | left (move : source[k]? = some '<') (edge : drift source k = 0) :
      Leaves memory source k (.offTape k 0 '<')
  | right (move : source[k]? = some '>') (edge : drift source k = memory - 1) :
      Leaves memory source k (.offTape k (memory - 1) '>')

/-- The tape after the first `k` positions. -/
def tapeAt (memory : Nat) (source : List Char) (input : List UInt8) (k : Nat) : Tape :=
  ⟨Array.ofFn fun c : Fin memory => cellAt source input c k, (drift source k).toNat⟩

/-- The machine after the first `k` positions. -/
def machineAt (memory : Nat) (source : List Char) (input : List UInt8) (k : Nat) : Machine :=
  ⟨tapeAt memory source input k, (printed source input k).toArray, k⟩

/-- The machine after the first `k` positions and the bytes that are left for it. -/
def stateAt (memory : Nat) (source : List Char) (input : List UInt8) (k : Nat) : Sequential :=
  ⟨machineAt memory source input k, input.drop ((source.take k).count ',')⟩

/-- What a run of the whole text leaves behind. -/
def final (memory : Nat) (source : List Char) (input : List UInt8) : Outcome :=
  ⟨(printed source input source.length).toArray, .completed,
    tapeAt memory source input source.length⟩

/-! ## Where the pointer is -/

theorem StaysOn.mono (h : StaysOn memory source n) (hkn : k ≤ n) : StaysOn memory source k :=
  fun j hj => h j (Nat.le_trans hj hkn)

theorem StaysOn.exists_pointer (h : StaysOn memory source k) :
    ∃ pointer : Nat, drift source k = pointer ∧ pointer < memory := by
  obtain ⟨hleft, hright⟩ := h k (Nat.le_refl k)
  exact ⟨(drift source k).toNat, by omega, by omega⟩

theorem StaysOn.inBounds (h : StaysOn memory source k) :
    (tapeAt memory source input k).InBounds := by
  obtain ⟨pointer, hpointer, hlt⟩ := h.exists_pointer
  simpa [Tape.InBounds, Tape.size, tapeAt, hpointer] using hlt

theorem staysOn_succ_iff : StaysOn memory source (k + 1) ↔
    StaysOn memory source k ∧ 0 ≤ drift source (k + 1) ∧ drift source (k + 1) < memory :=
  forall_le_succ_iff

/-- A pointer that does not stay on the tape leaves it between two positions. -/
theorem exists_last_on (hmemory : 0 < memory) (h : ¬ StaysOn memory source n) :
    ∃ k < n, StaysOn memory source k ∧ ¬ StaysOn memory source (k + 1) := by
  refine exists_last_good ?_ h
  rw [drift_zero]
  omega

/-- Only a move at an end of the tape brings the pointer off it. -/
theorem StaysOn.exists_leaves (hon : StaysOn memory source k)
    (hoff : ¬ StaysOn memory source (k + 1)) : ∃ cause, Leaves memory source k cause := by
  obtain ⟨pointer, hpointer, hlt⟩ := hon.exists_pointer
  have hnext : ¬ (0 ≤ drift source (k + 1) ∧ drift source (k + 1) < memory) :=
    fun hnext => hoff (staysOn_succ_iff.mpr ⟨hon, hnext⟩)
  by_cases hright : source[k]? = some '>'
  · rw [drift_succ_right hright, hpointer] at hnext
    exact ⟨_, .right hright (by omega)⟩
  · by_cases hleft : source[k]? = some '<'
    · rw [drift_succ_left hleft, hpointer] at hnext
      exact ⟨_, .left hleft (by omega)⟩
    · rw [drift_succ_stay hright hleft, hpointer] at hnext
      omega

/-- Where the move leaves the tape, the operator fails. -/
theorem Leaves.fails (h : Leaves memory source k cause) (input : List UInt8) :
    (machineAt memory source input k).Fails memory (.ofChars source) cause := by
  cases h with
  | left move edge =>
    have hop : (Program.ofChars source).op? k = some .left := by simp [move, Op.ofChar?]
    exact .left hop (by simp [machineAt, tapeAt, edge])
  | right move edge =>
    have hop : (Program.ofChars source).op? k = some .right := by simp [move, Op.ofChar?]
    exact .right hop (by simp [machineAt, tapeAt, edge])

/-! ## The path -/

theorem start_eq_machineAt {m : Machine} (h : Machine.start memory = .ok m) (source : List Char)
    (input : List UInt8) : m = machineAt memory source input 0 := by
  obtain ⟨tape, htape, rfl⟩ := Machine.start_eq_ok h
  unfold Tape.blank at htape
  split at htape <;> cases htape
  have hcells : Array.replicate memory 0 = Array.ofFn fun c : Fin memory =>
      cellAt source input c 0 := by
    apply Array.ext <;> simp
  rw [hcells]
  rfl

/-- One more position changes the cell under the pointer and moves the pointer. -/
theorem tapeAt_succ (hch : source[k]? = some ch) (hpointer : drift source k = pointer) :
    tapeAt memory source input (k + 1) =
      ⟨((tapeAt memory source input k).modify (onCell ch (byteFor source input k))).cells,
        (drift source (k + 1)).toNat⟩ := by
  refine congrArg (Tape.mk · _) (Array.ext (by simp [tapeAt, Tape.modify]) fun c _ _ => ?_)
  simp [tapeAt, Tape.modify, Array.getElem_modify, cellAt_succ_eq hch hpointer, hpointer]

/-- A character that does not move changes the tape as it changes the cell under the pointer. -/
theorem tapeAt_succ_of_stay (hch : source[k]? = some ch) (hpointer : drift source k = pointer)
    (hright : ch ≠ '>') (hleft : ch ≠ '<') : tapeAt memory source input (k + 1) =
      (tapeAt memory source input k).modify (onCell ch (byteFor source input k)) := by
  rw [tapeAt_succ hch hpointer, drift_succ_stay (by simp [hch, hright]) (by simp [hch, hleft])]
  rfl

/-- A character that changes no cell moves the pointer at most. -/
theorem tapeAt_succ_of_kept (hch : source[k]? = some ch) (hpointer : drift source k = pointer)
    (hread : ch ≠ ',') (hadd : ch ≠ '+') (htake : ch ≠ '-') :
    tapeAt memory source input (k + 1) =
      ⟨(tapeAt memory source input k).cells, (drift source (k + 1)).toNat⟩ := by
  rw [tapeAt_succ hch hpointer, onCell_other hread hadd htake, Tape.modify_id]

theorem current?_tapeAt (h : StaysOn memory source k) : (tapeAt memory source input k).current? =
    some (cellAt source input (drift source k).toNat k) := by
  rw [Tape.current?_eq_some _ h.inBounds]
  simp [tapeAt]

theorem moveRight_tapeAt (hch : source[k]? = some '>') (hon : StaysOn memory source (k + 1))
    (input : List UInt8) :
    (tapeAt memory source input k).moveRight k = .ok (tapeAt memory source input (k + 1)) := by
  obtain ⟨hhere, -, hlt⟩ := staysOn_succ_iff.mp hon
  obtain ⟨pointer, hpointer, -⟩ := hhere.exists_pointer
  have hdrift : drift source (k + 1) = pointer + 1 := by rw [drift_succ_right hch, hpointer]
  rw [tapeAt_succ_of_kept hch hpointer (by decide) (by decide) (by decide), hdrift]
  rw [hdrift] at hlt
  have hroom : pointer + 1 < memory := by omega
  simp [Tape.moveRight, tapeAt, hpointer, hroom]

theorem moveLeft_tapeAt (hch : source[k]? = some '<') (hon : StaysOn memory source (k + 1))
    (input : List UInt8) :
    (tapeAt memory source input k).moveLeft k = .ok (tapeAt memory source input (k + 1)) := by
  obtain ⟨hhere, hge, -⟩ := staysOn_succ_iff.mp hon
  obtain ⟨pointer, hpointer, -⟩ := hhere.exists_pointer
  have hdrift : drift source (k + 1) = pointer - 1 := by rw [drift_succ_left hch, hpointer]
  rw [tapeAt_succ_of_kept hch hpointer (by decide) (by decide) (by decide), hdrift]
  rw [hdrift] at hge
  have hroom : 0 < pointer := by omega
  simp [Tape.moveLeft, tapeAt, hpointer, hroom]

theorem machineAt_succ (hch : source[k]? = some ch) : machineAt memory source input (k + 1) =
    ⟨tapeAt memory source input (k + 1), (printed source input k ++ if ch = '.' then
      [cellAt source input (drift source k).toNat k] else []).toArray, k + 1⟩ := by
  rw [machineAt, printed_succ, hch]
  simp

theorem stateAt_succ (hch : source[k]? = some ch) : stateAt memory source input (k + 1) =
    ⟨machineAt memory source input (k + 1),
      input.drop ((source.take k).count ',' + if ch = ',' then 1 else 0)⟩ := by
  rw [stateAt, count_take_succ, hch]
  simp

theorem skip_machineAt (hch : source[k]? = some ch) (hspells : Op.ofChar? ch = none)
    (hon : StaysOn memory source k) :
    (machineAt memory source input k).skip = machineAt memory source input (k + 1) := by
  obtain ⟨pointer, hpointer, -⟩ := hon.exists_pointer
  have hne : ∀ op : Op, ch ≠ op.toChar := by
    rintro op rfl
    rw [Op.ofChar?_toChar] at hspells
    cases hspells
  have hdrift : drift source (k + 1) = drift source k :=
    drift_succ_stay (fun h => hne .right (Option.some.inj (hch.symm.trans h)))
      (fun h => hne .left (Option.some.inj (hch.symm.trans h)))
  rw [machineAt_succ hch, tapeAt_succ_of_kept hch hpointer (hne .read) (hne .increment)
    (hne .decrement), hdrift, if_neg (show ch ≠ '.' from hne .print), List.append_nil]
  rfl

theorem accept_machineAt (hch : source[k]? = some ',') (hon : StaysOn memory source k) :
    (machineAt memory source input k).accept (byteFor source input k) =
      machineAt memory source input (k + 1) := by
  obtain ⟨pointer, hpointer, -⟩ := hon.exists_pointer
  rw [machineAt_succ hch, tapeAt_succ_of_stay hch hpointer (by decide) (by decide), onCell_read,
    Tape.modify_const]
  simp [machineAt, Machine.accept]

/-- Every operator but `,` and the brackets makes the next machine of the one before it. -/
theorem perform_machineAt (hch : source[k]? = some op.toChar) (hread : op ≠ .read)
    (input : List UInt8) (hloop : op ≠ .openLoop ∧ op ≠ .closeLoop)
    (hon : StaysOn memory source (k + 1)) :
    (machineAt memory source input k).perform (.ofChars source)
        (cellAt source input (drift source k).toNat k) op =
      .ok (machineAt memory source input (k + 1)) := by
  obtain ⟨hhere, -⟩ := staysOn_succ_iff.mp hon
  obtain ⟨pointer, hpointer, -⟩ := hhere.exists_pointer
  rw [machineAt_succ hch]
  cases op with
  | right =>
    have htape := moveRight_tapeAt hch hon input
    simp [machineAt, Machine.perform, htape, Op.toChar]
  | left =>
    have htape := moveLeft_tapeAt hch hon input
    simp [machineAt, Machine.perform, htape, Op.toChar]
  | increment =>
    rw [tapeAt_succ_of_stay hch hpointer (by decide) (by decide), Op.toChar, onCell_increment]
    simp [machineAt, Machine.perform, Tape.increment]
  | decrement =>
    rw [tapeAt_succ_of_stay hch hpointer (by decide) (by decide), Op.toChar, onCell_decrement]
    simp [machineAt, Machine.perform, Tape.decrement]
  | print =>
    rw [tapeAt_succ_of_kept hch hpointer (by decide) (by decide) (by decide),
      drift_succ_stay (by simp [hch, Op.toChar]) (by simp [hch, Op.toChar])]
    simp [machineAt, Machine.perform, Machine.print, Op.toChar, tapeAt]
  | read => exact absurd rfl hread
  | openLoop => exact absurd rfl hloop.1
  | closeLoop => exact absurd rfl hloop.2

/-- The machine at a position takes one step, to the next one. -/
theorem step_stateAt (hch : source[k]? = some ch) (hloop : ch ≠ '[' ∧ ch ≠ ']')
    (hinput : ch = ',' → (source.take k).count ',' < input.length)
    (hon : StaysOn memory source (k + 1)) :
    (stateAt memory source input k).step (.ofChars source) =
      .next (stateAt memory source input (k + 1)) := by
  obtain ⟨hhere, -⟩ := staysOn_succ_iff.mp hon
  refine Sequential.Does.step_eq ?_ hhere.inBounds
  have hop : (Program.ofChars source).op? k = Op.ofChar? ch := by simp [hch]
  rw [stateAt_succ hch]
  -- a comment, a `,`, or one of the operators that leave the input alone
  cases hspells : Op.ofChar? ch with
  | none =>
    have hne : ch ≠ ',' := by
      rintro rfl
      cases hspells
    have hip : k < (Program.ofChars source).size := by
      rw [Program.size_ofChars]
      exact (List.getElem?_eq_some_iff.mp hch).1
    rw [if_neg hne, ← skip_machineAt hch hspells hhere]
    exact .comment (s := stateAt memory source input k) hip (hop.trans hspells)
  | some op =>
    obtain rfl := Op.ofChar?_eq_some_iff.mp hspells
    rw [hspells] at hop
    by_cases hread : op = .read
    · subst hread
      have hlt := hinput rfl
      have hbyte : byteFor source input k = input[(source.take k).count ','] := by
        simp [byteFor, hlt]
      rw [show Op.read.toChar = ',' from rfl, if_pos rfl, ← accept_machineAt hch hhere, hbyte]
      exact .reads (s := stateAt memory source input k) hop (List.drop_eq_getElem_cons hlt)
    · have hne : op.toChar ≠ ',' := fun heq => hread (Op.toChar_injective (b := .read) heq)
      have hmachine := perform_machineAt hch hread input
        ⟨fun h => hloop.1 (h ▸ rfl), fun h => hloop.2 (h ▸ rfl)⟩ hon
      rw [if_neg hne]
      exact .performs (s := stateAt memory source input k) hop hread (current?_tapeAt hhere)
        hmachine

/-- The machine comes to every position up to which the pointer stays on the tape. -/
theorem exists_path (hloop : '[' ∉ source ∧ ']' ∉ source)
    (hinput : source.count ',' ≤ input.length) (hk : k ≤ source.length)
    (hon : StaysOn memory source k) :
    ∃ done, Sequential.Path (.ofChars source) k (stateAt memory source input 0) done
      (stateAt memory source input k) := by
  induction k with
  | zero => exact ⟨[], .nil⟩
  | succ k ih =>
    obtain ⟨done, path⟩ := ih (Nat.le_of_succ_le hk) (hon.mono (Nat.le_succ k))
    have hch := List.getElem?_eq_getElem hk
    have hmem := List.getElem_mem hk
    refine ⟨_, path.snoc (step_stateAt hch ⟨?_, ?_⟩ ?_ hon)⟩
    · exact fun heq => hloop.1 (heq ▸ hmem)
    · exact fun heq => hloop.2 (heq ▸ hmem)
    · intro heq
      -- the `,` at this position is one more than stand before it
      have hcount : (source.take (k + 1)).count ',' ≤ source.count ',' :=
        (List.take_sublist _ _).count_le _
      rw [count_take_succ, hch, heq, if_pos rfl] at hcount
      omega

/-! ## Where the machine does not go on -/

theorem ends_final (hon : StaysOn memory source source.length) :
    Sequential.Ends (.ofChars source) (stateAt memory source input source.length)
      (.done (final memory source input)) := by
  have ends := Sequential.Ends.of_size_le (p := .ofChars source)
    (s := stateAt memory source input source.length) (by simp [stateAt, machineAt]) hon.inBounds
  have houtcome : (machineAt memory source input source.length).outcome (.ofChars source) =
      final memory source input := by
    simp [Machine.outcome, machineAt, final]
  rwa [stateAt, houtcome] at ends

theorem Leaves.ends (h : Leaves memory source k cause) (hon : StaysOn memory source k) :
    Sequential.Ends (.ofChars source) (stateAt memory source input k) (.failed cause) := by
  have hsize : (tapeAt memory source input k).size = memory := by simp [Tape.size, tapeAt]
  exact Sequential.ends_failed_iff.mpr
    ((Sequential.step_eq_failed_iff hon.inBounds hsize).mpr ⟨cause, rfl, h.fails input⟩)

end StraightLine

/-! ## Runs -/

namespace System

variable {memory index time k : Nat} {program : Program} {stream : ByteStream} {sched : Nat → Act}
  {fresh s : System} {acts : List Act} {c : Call} {m : Machine} {source : List Char}
  {input : List UInt8} {r : Result}

theorem Begun.exists_fresh (h : s.Begun memory program index) :
    ∃ fresh acts, System.new memory = .ok fresh ∧ s = fresh.after acts := by
  obtain ⟨fresh, acts, c, hfresh, -, -, -, rfl⟩ := h
  exact ⟨fresh, acts ++ [.advance index], hfresh, (after_concat ..).symm⟩

theorem Runs.memory_pos (h : s.Runs memory program index stream sched) : 0 < memory := by
  obtain ⟨m, hstart⟩ := h.exists_start
  have hlt : m.tape.pointer < m.tape.size := Machine.start_inBounds hstart
  rw [Machine.start_size hstart] at hlt
  exact Nat.lt_of_le_of_lt (Nat.zero_le _) hlt

/-- A run that has returned has completed what lies before the end of its path, has taken the bytes
for it, and has told the sink what it prints. -/
theorem Runs.of_result (h : s.Runs memory program index stream sched)
    (hstart : Machine.start memory = .ok m) {n : Nat} {done : List Completion} {t : Sequential}
    (path : Sequential.Path program n ⟨m, stream.take k⟩ done t) {r' : Result}
    (ends : Sequential.Ends program t r')
    (hr : (s.after (upTo sched time)).result? index = some r) :
    s.popped index (upTo sched time) = takenBytes done ∧
      sinkBytes (s.sinkCalls index (upTo sched time)) = printedBytes program done := by
  obtain ⟨origin, -, hpath⟩ := h.begun.onPath
  obtain ⟨c, hc, hprogram, -⟩ := h.begun.exists_call
  obtain ⟨fresh, acts, hfresh, rfl⟩ := h.begun.exists_fresh
  obtain ⟨enough, hdone⟩ := h.eventually_completes hstart path ends
  -- nothing is completed after the result is there
  obtain ⟨c', hc', hclosing⟩ :=
    exists_call_of_stage? ((hpath.after (upTo sched time)).stage_of_result hr)
  rw [← after_append] at hc'
  have hsilent := (silent_of_closing hfresh hc' hclosing (upTo (since sched time) enough)).2
  have hall := (hdone (time + enough) (Nat.le_add_left ..)).1
  rw [completions_since, ← after_append, hsilent, List.append_nil] at hall
  rw [hpath.popped_eq, sinkBytes_since hfresh hc, hprogram, hall]
  exact ⟨rfl, rfl⟩

open StraightLine

/-- A run of a text without loops comes to a position from which its machine does not go on: with
this result, the bytes for the `,` before it taken, and the sink told what is printed before it. -/
theorem Runs.straight_line_ends (h : s.Runs memory (.ofChars source) index stream sched)
    (hloop : '[' ∉ source ∧ ']' ∉ source) (hinput : stream.take (source.count ',') = input)
    (hlength : input.length = source.count ',') (hk : k ≤ source.length)
    (hon : StaysOn memory source k)
    (ends : Sequential.Ends (.ofChars source) (stateAt memory source input k) r) :
    s.Destined index sched (.returns r) ∧
      ∀ time r', (s.after (upTo sched time)).result? index = some r' →
        s.popped index (upTo sched time) = input.take ((source.take k).count ',') ∧
          sinkBytes (s.sinkCalls index (upTo sched time)) = printed source input k := by
  obtain ⟨m, hstart⟩ := h.exists_start
  obtain rfl := start_eq_machineAt hstart source input
  have hm := Machine.start_inBounds hstart
  have henough := Nat.le_of_eq hlength.symm
  obtain ⟨done, path⟩ := StraightLine.exists_path hloop henough hk hon
  have htaken : input = takenBytes done ++ input.drop ((source.take k).count ',') :=
    path.input_eq hm
  have hprinted : printed source input k = printedBytes (.ofChars source) done :=
    path.output_eq hm
  have path' : Sequential.Path (.ofChars source) k
      ⟨machineAt memory source input 0, stream.take (source.count ',')⟩ done
      (stateAt memory source input k) := by
    rw [hinput]
    exact path
  refine ⟨(h.pursues hstart).destined_of_ends path' ends, fun time r' hr => ?_⟩
  obtain ⟨hpopped, hsink⟩ := h.of_result hstart path' ends hr
  rw [hpopped, hsink, hprinted]
  refine ⟨List.append_cancel_right (htaken.symm.trans ?_), rfl⟩
  exact (List.take_append_drop ..).symm

/-- A text without loops always comes to an end, and what comes of it can be said by counting its
characters. If the pointer stays on the tape the run completes, with the pointer, the cells and the
output that `final` gives, and it has taken one byte for each `,`. Otherwise it fails at the first
move that leaves the tape, and the sink has been told what is printed before that. -/
theorem straight_line_has_closed_form (h : s.Runs memory (.ofChars source) index stream sched)
    (hloop : '[' ∉ source ∧ ']' ∉ source) (hinput : stream.take (source.count ',') = input)
    (hlength : input.length = source.count ',') :
    (StaysOn memory source source.length →
      s.Destined index sched (.returns (.done (final memory source input))) ∧
      ∀ time r, (s.after (upTo sched time)).result? index = some r →
        s.popped index (upTo sched time) = input ∧
          sinkBytes (s.sinkCalls index (upTo sched time)) = printed source input source.length) ∧
    (¬ StaysOn memory source source.length → ∃ k cause, StaysOn memory source k ∧
      ¬ StaysOn memory source (k + 1) ∧ Leaves memory source k cause ∧
      s.Destined index sched (.returns (.failed cause)) ∧
      ∀ time r, (s.after (upTo sched time)).result? index = some r →
        sinkBytes (s.sinkCalls index (upTo sched time)) = printed source input k) := by
  constructor
  · intro hon
    have ends : Sequential.Ends (.ofChars source) (stateAt memory source input source.length)
        (.done (final memory source input)) := ends_final hon
    obtain ⟨destined, hresult⟩ := h.straight_line_ends hloop hinput hlength (Nat.le_refl _) hon ends
    refine ⟨destined, fun time r hr => ?_⟩
    rw [List.take_length, ← hlength, List.take_length] at hresult
    exact hresult time r hr
  · intro hoff
    obtain ⟨k, hk, hon, hnext⟩ := exists_last_on h.memory_pos hoff
    obtain ⟨cause, leaves⟩ := hon.exists_leaves hnext
    obtain ⟨destined, hresult⟩ := h.straight_line_ends hloop hinput hlength (Nat.le_of_lt hk) hon
      (leaves.ends hon)
    exact ⟨k, cause, hon, hnext, leaves, destined, fun time r hr => (hresult time r hr).2⟩

/-- The text reads 0, takes one from it, prints the 255 that it gets and moves on. There is room for
that on two cells, on one there is not. -/
theorem straight_line_has_closed_form_of_wrapping :
    let source := [',', '-', '.', '>']
    let program : Program := .ofChars source
    let sched := eager 0 [0]
    (cleared 2 program).Runs 2 program 0 (.ofList [0]) sched ∧
      (cleared 1 program).Runs 1 program 0 (.ofList [0]) sched ∧
      ('[' ∉ source ∧ ']' ∉ source) ∧ (ByteStream.ofList [0]).take (source.count ',') = [0] ∧
      [(0 : UInt8)].length = source.count ',' ∧ StaysOn 2 source source.length ∧
      ¬ StaysOn 1 source source.length ∧
      (cleared 2 program).Destined 0 sched
        (.returns (.done ⟨#[255], .completed, ⟨#[255, 0], 1⟩⟩)) ∧
      (cleared 1 program).Destined 0 sched (.returns (.failed (.offTape 3 0 '>'))) := by
  intro source program sched
  have h : (cleared 2 program).Runs 2 program 0 (.ofList [0]) sched := runs_eager (by decide) _ _
  have h' : (cleared 1 program).Runs 1 program 0 (.ofList [0]) sched := runs_eager (by decide) _ _
  have hloop : '[' ∉ source ∧ ']' ∉ source := by decide
  have hinput : (ByteStream.ofList [0]).take (source.count ',') = [0] := by decide
  have hlength : [(0 : UInt8)].length = source.count ',' := by decide
  have hon : StaysOn 2 source source.length := by decide
  have hoff : ¬ StaysOn 1 source source.length := by decide
  have hfinal : final 2 source [0] = ⟨#[255], .completed, ⟨#[255, 0], 1⟩⟩ := by decide
  obtain ⟨completes, -⟩ := (straight_line_has_closed_form h hloop hinput hlength).1 hon
  obtain ⟨k, cause, -, -, -, fails, -⟩ :=
    (straight_line_has_closed_form h' hloop hinput hlength).2 hoff
  have hr : ((cleared 1 program).after (upTo sched 12)).result? 0 =
      some (.failed (.offTape 3 0 '>')) := by decide
  rw [hfinal] at completes
  have hcause := (fails _).mp (h'.meets_of_result hr)
  exact ⟨h, h', hloop, hinput, hlength, hon, hoff, completes, hcause ▸ fails⟩

end System

end Brainfuck
