import Brainfuck.Proofs.Scans
import Brainfuck.Proofs.Worker

/-!
# Brackets and their partners

The scan to the right and the scan to the left count their depths apart and stop for reasons of
their own. What each of them finds is said here by the text it has passed: a scan to the right that
is `depth` loops deep has come out of exactly so many of them, and of no more on the way
(`Program.Falls`), a scan to the left has done the mirror of that (`Program.Rises`). At depth zero
the two are one and the same, that the text between the brackets is balanced, so that a `[` and a `]`
are partners in one direction if and only if they are in the other (`Program.Partners`). Two pairs
whose texts overlapped without one inside the other would each close within the common part what the
other must leave open.
-/

namespace Brainfuck

namespace Program

variable {p : Program} {start close start' close' pos depth : Nat}

/-! ## The text between two positions -/

/-- What stands from position `lo` up to position `hi`. -/
def between (p : Program) (lo hi : Nat) : List (Option Op) :=
  (p.ops.toList.take hi).drop lo

theorem between_self (p : Program) (pos : Nat) : p.between pos pos = [] :=
  List.drop_eq_nil_of_le (List.length_take_le pos p.ops.toList)

theorem between_cons {lo hi : Nat} (hlt : lo < hi) (hlo : lo < p.size) :
    p.between lo hi = p.op? lo :: p.between (lo + 1) hi := by
  have hget : p.ops.toList[lo]? = some (p.op? lo) := by
    rw [op?, Array.getElem?_toList, Array.getElem?_eq_getElem hlo]
  have hfront : (p.ops.toList.take hi)[lo]? = some (p.op? lo) := by
    rw [List.getElem?_take_of_lt hlt, hget]
  obtain ⟨hlength, heq⟩ := List.getElem?_eq_some_iff.mp hfront
  rw [between, List.drop_eq_getElem_cons hlength, heq]
  rfl

theorem between_concat {lo hi : Nat} (hle : lo ≤ hi) (hhi : hi < p.size) :
    p.between lo (hi + 1) = p.between lo hi ++ [p.op? hi] := by
  have hlength : lo ≤ (p.ops.toList.take hi).length := by
    rw [List.length_take, Array.length_toList]
    exact Nat.le_min.mpr ⟨hle, Nat.le_trans hle (Nat.le_of_lt hhi)⟩
  rw [between, take_succ_of_lt hhi, List.drop_append_of_le_length hlength]
  rfl

/-- Past the end of the program nothing is added. -/
theorem between_succ_of_size_le {lo hi : Nat} (hhi : p.size ≤ hi) :
    p.between lo (hi + 1) = p.between lo hi := by
  have hle : p.ops.toList.length ≤ hi := by rwa [Array.length_toList]
  rw [between, between, List.take_of_length_le hle, List.take_of_length_le (Nat.le_succ_of_le hle)]

theorem between_isPrefix (lo : Nat) {hi hi' : Nat} (hle : hi ≤ hi') :
    p.between lo hi <+: p.between lo hi' := by
  rw [between, between, List.drop_take, List.drop_take]
  exact List.take_prefix_take_left (Nat.sub_le_sub_right hle lo)

theorem between_isSuffix {lo lo' : Nat} (hle : lo ≤ lo') (hi : Nat) :
    p.between lo' hi <:+ p.between lo hi := by
  obtain ⟨more, rfl⟩ := Nat.exists_eq_add_of_le hle
  unfold between
  rw [← List.drop_drop]
  exact List.drop_suffix more _

/-! ## What a scan has passed -/

/-- The text leaves `depth` loops that are open before it, and on the way never more. -/
def Falls (depth : Nat) (text : List (Option Op)) : Prop :=
  text.count (some .closeLoop) = text.count (some .openLoop) + depth ∧
    ∀ front, front <+: text →
      front.count (some .closeLoop) ≤ front.count (some .openLoop) + depth

/-- The text enters `depth` loops that are open behind it, and from nowhere on more. -/
def Rises (depth : Nat) (text : List (Option Op)) : Prop :=
  text.count (some .openLoop) = text.count (some .closeLoop) + depth ∧
    ∀ back, back <:+ text →
      back.count (some .openLoop) ≤ back.count (some .closeLoop) + depth

variable {text : List (Option Op)} {o : Option Op}

theorem falls_nil : Falls depth [] ↔ depth = 0 := by
  constructor
  · intro h
    simpa [eq_comm] using h.1
  · rintro rfl
    refine ⟨rfl, fun front hfront => ?_⟩
    rw [List.prefix_nil.mp hfront]
    exact Nat.zero_le _

theorem falls_open : Falls depth (some .openLoop :: text) ↔ Falls (depth + 1) text := by
  unfold Falls
  rw [forall_prefix_cons]
  simp [Nat.add_assoc, Nat.add_comm 1]

theorem falls_close_succ : Falls (depth + 1) (some .closeLoop :: text) ↔ Falls depth text := by
  unfold Falls
  rw [forall_prefix_cons]
  simp [← Nat.add_assoc]

theorem not_falls_close_zero : ¬ Falls 0 (some .closeLoop :: text) := by
  intro h
  have hfirst := h.2 [some .closeLoop] ((List.prefix_cons_inj _).mpr List.nil_prefix)
  simp at hfirst

theorem falls_other (hopen : o ≠ some .openLoop) (hclose : o ≠ some .closeLoop) :
    Falls depth (o :: text) ↔ Falls depth text := by
  unfold Falls
  rw [forall_prefix_cons]
  simp [List.count_cons_of_ne, hopen, hclose]

theorem rises_nil : Rises depth [] ↔ depth = 0 := by
  constructor
  · intro h
    simpa [eq_comm] using h.1
  · rintro rfl
    refine ⟨rfl, fun back hback => ?_⟩
    rw [List.suffix_nil.mp hback]
    exact Nat.zero_le _

theorem rises_close : Rises depth (text ++ [some .closeLoop]) ↔ Rises (depth + 1) text := by
  unfold Rises
  rw [forall_suffix_concat]
  simp [Nat.add_assoc, Nat.add_comm 1]

theorem rises_open_succ : Rises (depth + 1) (text ++ [some .openLoop]) ↔ Rises depth text := by
  unfold Rises
  rw [forall_suffix_concat]
  simp [← Nat.add_assoc]

theorem not_rises_open_zero : ¬ Rises 0 (text ++ [some .openLoop]) := by
  intro h
  have hfirst := h.2 [some .openLoop] (List.suffix_append text _)
  simp at hfirst

theorem rises_other (hopen : o ≠ some .openLoop) (hclose : o ≠ some .closeLoop) :
    Rises depth (text ++ [o]) ↔ Rises depth text := by
  unfold Rises
  rw [forall_suffix_concat]
  simp [List.count_cons_of_ne, hopen, hclose]

/-- A text leaves no loop from the front if and only if it enters none from the back: what a front
closes too little, the rest closes too much. -/
theorem falls_zero_iff_rises_zero : Falls 0 text ↔ Rises 0 text := by
  constructor
  · rintro ⟨hall, hfronts⟩
    refine ⟨hall.symm, ?_⟩
    rintro back ⟨front, rfl⟩
    have hfront := hfronts front (List.prefix_append front back)
    rw [List.count_append, List.count_append] at hall
    omega
  · rintro ⟨hall, hbacks⟩
    refine ⟨hall.symm, ?_⟩
    rintro front ⟨back, rfl⟩
    have hback := hbacks back (List.suffix_append front back)
    rw [List.count_append, List.count_append] at hall
    omega

/-! ## What the scans find -/

/-- A bracket at which the scan to the right does not stop is passed. -/
theorem falls_between_succ_iff {depth' : Nat} (hlt : pos < p.size)
    (hstop : p.op? pos = some .closeLoop → depth ≠ 0)
    (hpass : ∀ text, Falls depth (p.op? pos :: text) ↔ Falls depth' text) :
    (pos + 1 ≤ close ∧ p.op? close = some .closeLoop ∧ Falls depth' (p.between (pos + 1) close)) ↔
      (pos ≤ close ∧ p.op? close = some .closeLoop ∧ Falls depth (p.between pos close)) := by
  constructor
  · rintro ⟨hle, hop, falls⟩
    refine ⟨Nat.le_of_succ_le hle, hop, ?_⟩
    rwa [between_cons hle hlt, hpass]
  · rintro ⟨hle, hop, falls⟩
    rcases Nat.eq_or_lt_of_le hle with rfl | hlt'
    · rw [between_self, falls_nil] at falls
      exact absurd falls (hstop hop)
    · rw [between_cons hlt' hlt, hpass] at falls
      exact ⟨hlt', hop, falls⟩

/-- What the scan to the right finds. -/
theorem scanRight_eq_some_iff : p.scanRight depth pos = some close ↔
    pos ≤ close ∧ p.op? close = some .closeLoop ∧ Falls depth (p.between pos close) := by
  induction hleft : p.size - pos generalizing pos depth with
  | zero =>
    rw [scanRight_of_size_le (Nat.le_of_sub_eq_zero hleft)]
    refine iff_of_false nofun ?_
    rintro ⟨hle, hop, -⟩
    have hlt := lt_size_of_op?_eq_some hop
    omega
  | succ left ih =>
    have hlt : pos < p.size := by omega
    have hrest : p.size - (pos + 1) = left := by omega
    by_cases hopen : p.op? pos = some .openLoop
    · rw [scanRight_open hopen, ih hrest]
      refine falls_between_succ_iff hlt (by simp [hopen]) fun text => ?_
      rw [hopen, falls_open]
    · by_cases hclose : p.op? pos = some .closeLoop
      · cases depth with
        | zero =>
          -- the scan stops here, and no text that begins with a `]` leaves no loop
          rw [scanRight_close_zero hclose, Option.some.injEq]
          constructor
          · rintro rfl
            exact ⟨Nat.le_refl _, hclose, by rw [between_self, falls_nil]⟩
          · rintro ⟨hle, -, falls⟩
            rcases Nat.eq_or_lt_of_le hle with heq | hlt'
            · exact heq
            · rw [between_cons hlt' hlt, hclose] at falls
              exact absurd falls not_falls_close_zero
        | succ depth =>
          rw [scanRight_close_succ hclose, ih hrest]
          refine falls_between_succ_iff hlt (fun _ => Nat.succ_ne_zero depth) fun text => ?_
          rw [hclose, falls_close_succ]
      · rw [scanRight_other hlt hopen hclose, ih hrest]
        exact falls_between_succ_iff hlt (fun h => absurd h hclose)
          fun text => falls_other hopen hclose

/-- A bracket at which the scan to the left does not stop is passed. -/
theorem rises_between_succ_iff {depth' : Nat} (hlt : pos < p.size)
    (hstop : p.op? pos = some .openLoop → depth ≠ 0)
    (hpass : ∀ text, Rises depth (text ++ [p.op? pos]) ↔ Rises depth' text) :
    (start < pos ∧ p.op? start = some .openLoop ∧ Rises depth' (p.between (start + 1) pos)) ↔
      (start < pos + 1 ∧ p.op? start = some .openLoop ∧
        Rises depth (p.between (start + 1) (pos + 1))) := by
  constructor
  · rintro ⟨hlt', hop, rises⟩
    refine ⟨Nat.lt_succ_of_lt hlt', hop, ?_⟩
    rwa [between_concat hlt' hlt, hpass]
  · rintro ⟨hlt', hop, rises⟩
    rcases Nat.eq_or_lt_of_le (Nat.le_of_lt_succ hlt') with rfl | hlt''
    · rw [between_self, rises_nil] at rises
      exact absurd rises (hstop hop)
    · rw [between_concat hlt'' hlt, hpass] at rises
      exact ⟨hlt'', hop, rises⟩

/-- What the scan to the left finds. -/
theorem openBefore_eq_some_iff : p.openBefore depth pos = some start ↔
    start < pos ∧ p.op? start = some .openLoop ∧ Rises depth (p.between (start + 1) pos) := by
  induction pos generalizing depth with
  | zero => exact iff_of_false nofun fun h => absurd h.1 (Nat.not_lt_zero start)
  | succ pos ih =>
    by_cases hlt : pos < p.size
    · by_cases hclose : p.op? pos = some .closeLoop
      · rw [openBefore_close hclose, ih]
        refine rises_between_succ_iff hlt (by simp [hclose]) fun text => ?_
        rw [hclose, rises_close]
      · by_cases hopen : p.op? pos = some .openLoop
        · cases depth with
          | zero =>
            rw [openBefore_open_zero hopen, Option.some.injEq]
            constructor
            · rintro rfl
              exact ⟨Nat.lt_succ_self _, hopen, by rw [between_self, rises_nil]⟩
            · rintro ⟨hlt', -, rises⟩
              rcases Nat.eq_or_lt_of_le (Nat.le_of_lt_succ hlt') with heq | hlt''
              · exact heq.symm
              · rw [between_concat hlt'' hlt, hopen] at rises
                exact absurd rises not_rises_open_zero
          | succ depth =>
            rw [openBefore_open_succ hopen, ih]
            refine rises_between_succ_iff hlt (fun _ => Nat.succ_ne_zero depth) fun text => ?_
            rw [hopen, rises_open_succ]
        · rw [openBefore_other hopen hclose, ih]
          exact rises_between_succ_iff hlt (fun h => absurd h hopen)
            fun text => rises_other hopen hclose
    · -- past the end of the program the scan meets nothing
      have hle : p.size ≤ pos := Nat.not_lt.mp hlt
      have hnone : ∀ op, p.op? pos ≠ some op := fun op hop => hlt (lt_size_of_op?_eq_some hop)
      rw [openBefore_other (hnone _) (hnone _), ih, between_succ_of_size_le hle]
      refine and_congr_left fun h => ?_
      have hstart := lt_size_of_op?_eq_some h.1
      omega

/-! ## Pairs -/

/-- The brackets at two positions belong together: what stands between them is balanced. -/
structure Partners (p : Program) (start close : Nat) : Prop where
  lt : start < close
  opens : p.op? start = some .openLoop
  closes : p.op? close = some .closeLoop
  falls : Falls 0 (p.between (start + 1) close)

/-- The scan from a `[` finds its partner. -/
theorem loopExit_eq_ok_iff (hop : p.op? start = some .openLoop) :
    p.loopExit start = .ok close ↔ p.Partners start close := by
  have hscan : p.loopExit start = .ok close ↔ p.scanRight 0 (start + 1) = some close := by
    rw [loopExit, ← closeFrom_eq]
    cases p.closeFrom (start + 1) <;> simp
  rw [hscan, scanRight_eq_some_iff]
  constructor
  · rintro ⟨hlt, hclose, falls⟩
    exact ⟨hlt, hop, hclose, falls⟩
  · intro h
    exact ⟨h.lt, h.closes, h.falls⟩

/-- The scan from a `]` finds its partner. -/
theorem loopEntry_eq_ok_iff (hop : p.op? close = some .closeLoop) :
    p.loopEntry close = .ok start ↔ p.Partners start close := by
  have hscan : p.loopEntry close = .ok start ↔ p.openBefore 0 close = some start := by
    have hle : ¬ p.size < close := Nat.not_lt.mpr (Nat.le_of_lt (lt_size_of_op?_eq_some hop))
    rw [loopEntry, if_neg hle]
    cases p.openBefore 0 close <;> simp
  rw [hscan, openBefore_eq_some_iff]
  constructor
  · rintro ⟨hlt, hopen, rises⟩
    exact ⟨hlt, hopen, hop, falls_zero_iff_rises_zero.mpr rises⟩
  · intro h
    exact ⟨h.lt, h.opens, falls_zero_iff_rises_zero.mp h.falls⟩

namespace Partners

theorem loopExit_eq (h : p.Partners start close) : p.loopExit start = .ok close :=
  (loopExit_eq_ok_iff h.opens).mpr h

theorem loopEntry_eq (h : p.Partners start close) : p.loopEntry close = .ok start :=
  (loopEntry_eq_ok_iff h.closes).mpr h

theorem close_unique (h : p.Partners start close) (h' : p.Partners start close') :
    close = close' :=
  Except.ok.inj (h.loopExit_eq.symm.trans h'.loopExit_eq)

theorem start_unique (h : p.Partners start close) (h' : p.Partners start' close) :
    start = start' :=
  Except.ok.inj (h.loopEntry_eq.symm.trans h'.loopEntry_eq)

/-- A pair that opens inside another closes inside it. Otherwise the text from the inner `[` to the
outer `]` would open more than it closes, as seen from the outer pair, and not less than it closes, as
seen from the inner one. -/
theorem nested (h : p.Partners start close) (h' : p.Partners start' close') (hlt : start < start') :
    close < start' ∨ close' < close := by
  rcases Nat.lt_or_ge close start' with hbefore | hle
  · exact .inl hbefore
  rcases Nat.lt_or_ge close' close with hinside | hle'
  · exact .inr hinside
  have hne : start' ≠ close := by
    rintro rfl
    exact absurd (h'.opens.symm.trans h.closes) (by decide)
  have hcons : p.between start' close = some .openLoop :: p.between (start' + 1) close := by
    rw [between_cons (by omega) (lt_size_of_op?_eq_some h'.opens), h'.opens]
  have houter := (falls_zero_iff_rises_zero.mp h.falls).2 _ (between_isSuffix hlt close)
  have hinner := h'.falls.2 _ (between_isPrefix (start' + 1) hle')
  rw [hcons, List.count_cons_self, List.count_cons_of_ne (by decide)] at houter
  omega

/-- The source between the brackets is balanced. -/
theorem balanced {source : List Char} (h : (ofChars source).Partners start close) :
    Balanced ((source.take close).drop (start + 1)) := by
  have htext : (ofChars source).between (start + 1) close =
      ((source.take close).drop (start + 1)).map Op.ofChar? := by
    rw [between, List.map_drop, List.map_take]
    rfl
  have falls := h.falls
  rw [htext] at falls
  obtain ⟨hall, hfronts⟩ := falls
  rw [count_ofChar?, count_ofChar?] at hall
  refine ⟨hall, fun front hfront => ?_⟩
  have hcounts := hfronts (front.map Op.ofChar?) (hfront.map Op.ofChar?)
  rwa [count_ofChar?, count_ofChar?] at hcounts

end Partners

end Program

/-! ## Loops in a run -/

namespace Worker

variable {w w' : Worker} {queue : ByteQueue} {start close : Nat}

/-- A worker that goes on from a `]` whose cell is not zero is behind the partner of it. -/
theorem advance_repeats (hready : w.phase = .ready)
    (hop : w.program.op? w.machine.ip = some .closeLoop) {cell : UInt8}
    (hcell : w.machine.tape.current? = some cell) (hne : cell ≠ 0)
    (hprogress : (w.advance true queue).progress = .working w') :
    ∃ start, w.program.Partners start w.machine.ip ∧
      w'.machine = { w.machine with ip := start + 1 } := by
  obtain ⟨program, ⟨tape, output, ip⟩, stalled, phase⟩ := w
  subst hready
  cases hentry : program.loopEntry ip with
  | ok start =>
    have hperform : Machine.perform program cell ⟨tape, output, ip⟩ .closeLoop =
        .ok ⟨tape, output, start + 1⟩ := by
      simp only [Machine.perform, if_neg hne, hentry]
    obtain ⟨phase, events, -, hadvance⟩ :=
      advance_performs stalled queue hop (by decide) hcell hperform
    rw [hadvance] at hprogress
    cases hprogress
    exact ⟨start, (Program.loopEntry_eq_ok_iff hop).mp hentry, rfl⟩
  | error failure =>
    have hperform : Machine.perform program cell ⟨tape, output, ip⟩ .closeLoop =
        .error failure := by
      simp only [Machine.perform, if_neg hne, hentry]
    obtain ⟨events, hadvance⟩ := advance_fails stalled queue hop (by decide) hcell hperform
    rw [hadvance] at hprogress
    cases hprogress

/-- A worker at the `[` of a pair whose cell is zero goes on behind the `]`. -/
theorem advance_leaves (h : w.program.Partners start close) (hready : w.phase = .ready)
    (hip : w.machine.ip = start) (hcell : w.machine.tape.current? = some 0) (queue : ByteQueue) :
    ∃ w', (w.advance true queue).progress = .working w' ∧
      w'.machine = { w.machine with ip := close + 1 } := by
  obtain ⟨program, ⟨tape, output, ip⟩, stalled, phase⟩ := w
  subst hready hip
  have hperform : Machine.perform program 0 ⟨tape, output, ip⟩ .openLoop =
      .ok ⟨tape, output, close + 1⟩ := by
    rw [Machine.perform, if_pos rfl, h.loopExit_eq]
  obtain ⟨phase', events, -, hadvance⟩ :=
    advance_performs stalled queue h.opens (by decide) hcell hperform
  exact ⟨_, by rw [hadvance], rfl⟩

end Worker

/-- The brackets of a program with this text are paired one with one, and the pairs nest. -/
structure PairsNest (source : List Char) (p : Program) : Prop where
  /-- What a `[` finds is a `]` behind it that finds it back, with a balanced text between them, -/
  exits : ∀ start close, p.op? start = some .openLoop → p.loopExit start = .ok close →
    start < close ∧ close < p.size ∧ p.op? close = some .closeLoop ∧
      p.loopEntry close = .ok start ∧ Balanced ((source.take close).drop (start + 1))
  /-- and the other way round. -/
  entries : ∀ start close, p.op? close = some .closeLoop → p.loopEntry close = .ok start →
    start < close ∧ p.op? start = some .openLoop ∧
      p.loopExit start = .ok close ∧ Balanced ((source.take close).drop (start + 1))
  /-- Of two pairs the one that opens later lies behind the other or inside it. -/
  nests : ∀ start close start' close', p.op? start = some .openLoop →
    p.loopExit start = .ok close → p.op? start' = some .openLoop →
    p.loopExit start' = .ok close' → start < start' → close < start' ∨ close' < close
  /-- No `]` is the partner of two brackets, -/
  closes_apart : ∀ start start' close close', p.op? start = some .openLoop →
    p.loopExit start = .ok close → p.op? start' = some .openLoop →
    p.loopExit start' = .ok close' → start ≠ start' → close ≠ close'
  /-- and no `[` is. -/
  opens_apart : ∀ start start' close close', p.op? close = some .closeLoop →
    p.loopEntry close = .ok start → p.op? close' = some .closeLoop →
    p.loopEntry close' = .ok start' → close ≠ close' → start ≠ start'
  /-- A worker that repeats a loop goes back behind the `[` from which any worker that skips the loop
  comes out behind the same `]`. -/
  repeats : ∀ (w w' : Worker) (queue : ByteQueue) (cell : UInt8), w.program = p →
    w.phase = .ready → p.op? w.machine.ip = some .closeLoop →
    w.machine.tape.current? = some cell → cell ≠ 0 →
    (w.advance true queue).progress = .working w' →
    ∃ start, p.op? start = some .openLoop ∧ w'.machine = { w.machine with ip := start + 1 } ∧
      ∀ (v : Worker) (queue' : ByteQueue), v.program = p → v.phase = .ready →
        v.machine.ip = start → v.machine.tape.current? = some 0 →
        ∃ v', (v.advance true queue').progress = .working v' ∧
          v'.machine = { v.machine with ip := w.machine.ip + 1 }

/-- The scans of a program are inverse to each other and their pairs nest, whatever stray brackets
stand in the text. -/
theorem brackets_pair_and_nest (source : List Char) :
    PairsNest source (Program.ofChars source) where
  exits start close hop hexit := by
    have h := (Program.loopExit_eq_ok_iff hop).mp hexit
    exact ⟨h.lt, Program.lt_size_of_op?_eq_some h.closes, h.closes, h.loopEntry_eq, h.balanced⟩
  entries start close hop hentry := by
    have h := (Program.loopEntry_eq_ok_iff hop).mp hentry
    exact ⟨h.lt, h.opens, h.loopExit_eq, h.balanced⟩
  nests start close start' close' hop hexit hop' hexit' := by
    have h := (Program.loopExit_eq_ok_iff hop).mp hexit
    exact h.nested ((Program.loopExit_eq_ok_iff hop').mp hexit')
  closes_apart start start' close close' hop hexit hop' hexit' hne := by
    have h := (Program.loopExit_eq_ok_iff hop).mp hexit
    have h' := (Program.loopExit_eq_ok_iff hop').mp hexit'
    rintro rfl
    exact hne (h.start_unique h')
  opens_apart start start' close close' hop hentry hop' hentry' hne := by
    have h := (Program.loopEntry_eq_ok_iff hop).mp hentry
    have h' := (Program.loopEntry_eq_ok_iff hop').mp hentry'
    rintro rfl
    exact hne (h.close_unique h')
  repeats w w' queue cell hprogram hready hop hcell hne hprogress := by
    rw [← hprogram] at hop
    obtain ⟨start, h, hmachine⟩ := Worker.advance_repeats hready hop hcell hne hprogress
    rw [hprogram] at h
    refine ⟨start, h.opens, hmachine, fun v queue' hprogram' hready' hip hzero => ?_⟩
    exact v.advance_leaves (hprogram' ▸ h) hready' hip hzero queue'

/-- A stray `]`, a loop with two loops inside, and a `[` that is never closed. -/
theorem brackets_pair_and_nest_of_strays :
    let source := [']', '[', '[', ']', 'x', '[', '-', ']', ']', '[']
    let p := Program.ofChars source
    let w : Worker := ⟨p, ⟨⟨#[5], 0⟩, #[], 7⟩, false, .ready⟩
    let v : Worker := ⟨p, ⟨⟨#[0], 0⟩, #[], 5⟩, false, .ready⟩
    (p.op? 1 = some .openLoop ∧ p.loopExit 1 = .ok 8 ∧ p.loopEntry 8 = .ok 1 ∧
      Balanced ((source.take 8).drop 2)) ∧
    (p.op? 7 = some .closeLoop ∧ p.loopEntry 7 = .ok 5 ∧ p.loopExit 5 = .ok 7) ∧
    (8 < 5 ∨ 7 < 8) ∧ p.loopExit 2 = .ok 3 ∧ 3 ≠ 7 ∧ 2 ≠ 5 ∧
    (∃ w', (w.advance true .empty).progress = .working w' ∧ w'.machine.ip = 6) ∧
    ∃ v', (v.advance true .empty).progress = .working v' ∧
      v'.machine = { v.machine with ip := 8 } := by
  intro source p w v
  have h := brackets_pair_and_nest source
  obtain ⟨-, -, -, hentry, hbalanced⟩ := h.exits 1 8 rfl rfl
  obtain ⟨-, -, hexit, -⟩ := h.entries 5 7 rfl rfl
  have hnests := h.nests 1 8 5 7 rfl rfl rfl hexit (by decide)
  have hcloses := h.closes_apart 2 5 3 7 rfl rfl rfl hexit (by decide)
  have hopens := h.opens_apart 2 5 3 7 rfl rfl rfl rfl hcloses
  obtain ⟨start, -, hmachine, skips⟩ :=
    h.repeats w ⟨p, ⟨⟨#[5], 0⟩, #[], 6⟩, false, .ready⟩ .empty 5 rfl rfl rfl rfl (by decide) rfl
  have hstart : start = 5 := (Nat.succ.inj (congrArg Machine.ip hmachine)).symm
  exact ⟨⟨rfl, rfl, hentry, hbalanced⟩, ⟨rfl, rfl, hexit⟩, hnests, rfl, hcloses, hopens,
    ⟨_, rfl, rfl⟩, skips v .empty rfl rfl hstart.symm rfl⟩

end Brainfuck
