import Brainfuck.Structured

/-!
# Brackets that match

`Balanced` counts brackets: a text is balanced if no beginning of it closes more loops than it opens
and all of it closes as many as it opens. `Block.Spans p b lo hi` says that the positions from `lo`
to `hi` of a program spell the block `b`.

A balanced text spells a block from its beginning to its end, and `Block.ofProgram?` finds it
(`Balanced.exists_block`). Where a loop stands in a block, the scans of the program find its ends:
`closeFrom` from behind the `[` finds the `]` of the same loop and `openBefore` from the `]` finds
the `[`, whatever loops and comments lie between them. Both directions come from one fact about each
scan: it passes over what spells a block without a change of depth.
-/

namespace Brainfuck

/-- Every bracket of the text has a partner. -/
def Balanced (source : List Char) : Prop :=
  source.count ']' = source.count '[' ∧
    ∀ text, text <+: source → text.count ']' ≤ text.count '['

theorem balanced_iff_take (source : List Char) :
    (source.count ']' = source.count '[' ∧
      ∀ n, n < source.length + 1 → (source.take n).count ']' ≤ (source.take n).count '[') ↔
      Balanced source := by
  refine and_congr Iff.rfl ⟨fun h text htext => ?_, fun h n _ => ?_⟩
  · rw [List.prefix_iff_eq_take.mp htext]
    exact h _ (Nat.lt_succ_of_le htext.length_le)
  · apply h
    exact List.take_prefix n source

instance (source : List Char) : Decidable (Balanced source) :=
  decidable_of_iff _ (balanced_iff_take source)

/-- The positions from `lo` to `hi` are comments. -/
inductive Program.Comments (p : Program) : Nat → Nat → Prop where
  | nil {lo : Nat} : Comments p lo lo
  | cons {lo hi : Nat} (hlt : lo < p.size) (hop : p.op? lo = none)
      (later : Comments p (lo + 1) hi) : Comments p lo hi

/-- The positions from `lo` to `hi` of the program spell the block. -/
inductive Block.Spans (p : Program) : Block → Nat → Nat → Prop where
  | done {lo hi : Nat} (skip : p.Comments lo hi) : Spans p .done lo hi
  | single {op : Op} {pos lo hi : Nat} {rest : Block} (skip : p.Comments lo pos)
      (hop : p.op? pos = some op) (hopen : op ≠ .openLoop) (hclose : op ≠ .closeLoop)
      (later : Spans p rest (pos + 1) hi) : Spans p (.single op pos rest) lo hi
  | loop {start close lo hi : Nat} {body rest : Block} (skip : p.Comments lo start)
      (hopen : p.op? start = some .openLoop) (inner : Spans p body (start + 1) close)
      (hclose : p.op? close = some .closeLoop) (later : Spans p rest (close + 1) hi) :
      Spans p (.loop start body close rest) lo hi

/-! ## What a bracket does to a scan -/

namespace Program

variable {p : Program} {lo hi : Nat}

/-- The scan to the right, from a position. -/
def scanRight (p : Program) (depth pos : Nat) : Option Nat :=
  p.closeWithin (p.size - pos) depth pos

theorem closeFrom_eq (p : Program) (start : Nat) : p.closeFrom start = p.scanRight 0 start := rfl

theorem scanRight_of_lt {pos : Nat} (h : pos < p.size) (depth : Nat) :
    p.scanRight depth pos = p.closeWithin (p.size - (pos + 1) + 1) depth pos := by
  unfold scanRight
  congr 1
  omega

theorem scanRight_of_size_le {pos : Nat} (h : p.size ≤ pos) (depth : Nat) :
    p.scanRight depth pos = none := by
  rw [scanRight, Nat.sub_eq_zero_of_le h, closeWithin]

theorem scanRight_open {pos : Nat} (h : p.op? pos = some .openLoop) (depth : Nat) :
    p.scanRight depth pos = p.scanRight (depth + 1) (pos + 1) := by
  rw [scanRight_of_lt (lt_size_of_op?_eq_some h)]
  unfold closeWithin
  rw [h]
  rfl

theorem scanRight_close_zero {pos : Nat} (h : p.op? pos = some .closeLoop) :
    p.scanRight 0 pos = some pos := by
  rw [scanRight_of_lt (lt_size_of_op?_eq_some h), closeWithin, h]

theorem scanRight_close_succ {pos : Nat} (h : p.op? pos = some .closeLoop) (depth : Nat) :
    p.scanRight (depth + 1) pos = p.scanRight depth (pos + 1) := by
  rw [scanRight_of_lt (lt_size_of_op?_eq_some h), closeWithin, h]
  rfl

theorem scanRight_other {pos : Nat} (hlt : pos < p.size) (hopen : p.op? pos ≠ some .openLoop)
    (hclose : p.op? pos ≠ some .closeLoop) (depth : Nat) :
    p.scanRight depth pos = p.scanRight depth (pos + 1) := by
  rw [scanRight_of_lt hlt]
  unfold closeWithin
  split
  · next h => exact absurd h hopen
  · next h => exact absurd h hclose
  · rfl

theorem openBefore_open_zero {pos : Nat} (h : p.op? pos = some .openLoop) :
    p.openBefore 0 (pos + 1) = some pos := by
  rw [openBefore, h]

theorem openBefore_open_succ {pos : Nat} (h : p.op? pos = some .openLoop) (depth : Nat) :
    p.openBefore (depth + 1) (pos + 1) = p.openBefore depth pos := by
  rw [openBefore, h]

theorem openBefore_close {pos : Nat} (h : p.op? pos = some .closeLoop) (depth : Nat) :
    p.openBefore depth (pos + 1) = p.openBefore (depth + 1) pos := by
  conv => lhs; unfold openBefore
  rw [h]

theorem openBefore_other {pos : Nat} (hopen : p.op? pos ≠ some .openLoop)
    (hclose : p.op? pos ≠ some .closeLoop) (depth : Nat) :
    p.openBefore depth (pos + 1) = p.openBefore depth pos := by
  conv => lhs; unfold openBefore
  split
  · next h => exact absurd h hclose
  · next h => exact absurd h hopen
  · rfl

theorem Comments.scanRight_eq (h : p.Comments lo hi) (depth : Nat) :
    p.scanRight depth lo = p.scanRight depth hi := by
  induction h with
  | nil => rfl
  | cons hlt hop _ ih => rw [scanRight_other hlt (by simp [hop]) (by simp [hop]), ih]

theorem Comments.openBefore_eq (h : p.Comments lo hi) (depth : Nat) :
    p.openBefore depth hi = p.openBefore depth lo := by
  induction h with
  | nil => rfl
  | cons _ hop _ ih => rw [ih, openBefore_other (by simp [hop]) (by simp [hop])]

end Program

namespace Block.Spans

variable {p : Program} {lo hi start close : Nat} {b body : Block}

/-- The scan to the right passes over a block at any depth: a loop inside makes it one deeper and
then one less deep. -/
theorem scanRight_eq (h : Spans p b lo hi) (depth : Nat) :
    p.scanRight depth lo = p.scanRight depth hi := by
  induction h generalizing depth with
  | done skip => exact skip.scanRight_eq depth
  | single skip hop hopen hclose _ ih =>
    rw [skip.scanRight_eq, Program.scanRight_other (Program.lt_size_of_op?_eq_some hop)
      (by simp [hop, hopen]) (by simp [hop, hclose]), ih]
  | loop skip hopen _ hclose _ inner_ih later_ih =>
    rw [skip.scanRight_eq, Program.scanRight_open hopen, inner_ih,
      Program.scanRight_close_succ hclose, later_ih]

/-- The scan to the left passes over a block at any depth. -/
theorem openBefore_eq (h : Spans p b lo hi) (depth : Nat) :
    p.openBefore depth hi = p.openBefore depth lo := by
  induction h generalizing depth with
  | done skip => exact skip.openBefore_eq depth
  | single skip hop hopen hclose _ ih =>
    rw [ih, Program.openBefore_other (by simp [hop, hopen]) (by simp [hop, hclose]),
      skip.openBefore_eq]
  | loop skip hopen _ hclose _ inner_ih later_ih =>
    rw [later_ih, Program.openBefore_close hclose, inner_ih, Program.openBefore_open_succ hopen,
      skip.openBefore_eq]

/-- The `[` of a loop finds its `]`. -/
theorem loopExit_eq (inner : Spans p body (start + 1) close)
    (hclose : p.op? close = some .closeLoop) : p.loopExit start = .ok close := by
  rw [Program.loopExit, Program.closeFrom_eq, inner.scanRight_eq,
    Program.scanRight_close_zero hclose]

/-- The `]` of a loop finds its `[`. -/
theorem loopEntry_eq (hopen : p.op? start = some .openLoop)
    (inner : Spans p body (start + 1) close) (hclose : p.op? close = some .closeLoop) :
    p.loopEntry close = .ok start := by
  have hlt := Program.lt_size_of_op?_eq_some hclose
  rw [Program.loopEntry, if_neg (by omega), inner.openBefore_eq,
    Program.openBefore_open_zero hopen]

/-- A comment in front of a block. -/
theorem comment (hlt : lo < p.size) (hop : p.op? lo = none) (h : Spans p b (lo + 1) hi) :
    Spans p b lo hi := by
  cases h with
  | done skip => exact .done (.cons hlt hop skip)
  | single skip hop' hopen hclose later =>
    exact .single (.cons hlt hop skip) hop' hopen hclose later
  | loop skip hopen inner hclose later =>
    exact .loop (.cons hlt hop skip) hopen inner hclose later

end Block.Spans

/-! ## Reading a program -/

namespace Block

/-- The rest of a program from a position on: each bracket that closes a loop opened before, with
the block that follows it. -/
inductive Closes (p : Program) : Nat → List (Nat × Block) → Prop where
  | nil : Closes p p.size []
  | cons {close hi : Nat} {rest : Block} {outer : List (Nat × Block)}
      (hop : p.op? close = some .closeLoop) (later : Spans p rest (close + 1) hi)
      (after : Closes p hi outer) : Closes p close ((close, rest) :: outer)

theorem op?_of_drop {p : Program} {pos : Nat} {o : Option Op} {ops : List (Option Op)}
    (h : p.ops.toList.drop pos = o :: ops) :
    pos < p.size ∧ p.op? pos = o ∧ p.ops.toList.drop (pos + 1) = ops := by
  have hget : p.ops[pos]? = some o := by
    rw [← Array.getElem?_toList, ← List.head?_drop, h]
    rfl
  refine ⟨(Array.getElem?_eq_some_iff.mp hget).1, by rw [Program.op?, hget], ?_⟩
  rw [← List.tail_drop, h]
  rfl

theorem size_le_of_drop {p : Program} {pos : Nat} (h : p.ops.toList.drop pos = []) :
    p.size ≤ pos := by
  have hle := List.drop_eq_nil_iff.mp h
  rwa [Array.length_toList] at hle

/-- What is read from a position on spells the text from there on. -/
theorem spans_of_parseFrom {p : Program} {ops : List (Option Op)} {pos : Nat} {b : Block}
    {outer : List (Nat × Block)} (hops : p.ops.toList.drop pos = ops) (hpos : pos ≤ p.size)
    (h : parseFrom pos ops = some (b, outer)) :
    ∃ hi, Spans p b pos hi ∧ Closes p hi outer := by
  induction ops generalizing pos b outer with
  | nil =>
    cases h
    rw [Nat.le_antisymm hpos (size_le_of_drop hops)]
    exact ⟨p.size, .done .nil, .nil⟩
  | cons o ops ih =>
    obtain ⟨hlt, hop, hrest⟩ := op?_of_drop hops
    simp only [parseFrom] at h
    split at h
    · cases h
    · next b' outer' hparse =>
      obtain ⟨hi, spans, closes⟩ := ih hrest hlt hparse
      split at h
      · -- a comment
        cases h
        exact ⟨hi, spans.comment hlt hop, closes⟩
      · -- a `]`, which ends the block before it
        cases h
        exact ⟨pos, .done .nil, .cons hop spans closes⟩
      · -- a `[`, which takes the first of the brackets that wait for one
        cases h
        cases closes with
        | cons hclose later after => exact ⟨_, .loop .nil hop spans hclose later, after⟩
      · cases h
      · next op hclose hopen hopen' =>
        cases h
        have hne : op ≠ .openLoop := by
          cases outer with
          | nil => exact hopen' rfl
          | cons first outer => exact hopen _ _ _ rfl
        exact ⟨hi, .single .nil hop hne hclose spans, closes⟩

/-- A text in which no end opens more loops than it closes can be read. It is read from its end, so
each bracket that waits is a `]` too many. -/
theorem exists_parseFrom {ops : List (Option Op)}
    (h : ∀ rest, rest <:+ ops → rest.count (some .openLoop) ≤ rest.count (some .closeLoop))
    (pos : Nat) : ∃ b outer, parseFrom pos ops = some (b, outer) ∧
      outer.length + ops.count (some .openLoop) = ops.count (some .closeLoop) := by
  induction ops generalizing pos with
  | nil => exact ⟨.done, [], rfl, rfl⟩
  | cons o ops ih =>
    obtain ⟨b, outer, hparse, hlength⟩ :=
      ih (fun rest hrest => h rest (hrest.trans (List.suffix_cons o ops))) (pos + 1)
    have hall := h _ (List.suffix_refl _)
    cases o with
    | none => exact ⟨b, outer, by simp [parseFrom, hparse], by simpa using hlength⟩
    | some op =>
      by_cases hclose : op = .closeLoop
      · subst hclose
        refine ⟨.done, (pos, b) :: outer, by simp [parseFrom, hparse], ?_⟩
        have hcount : (some Op.closeLoop :: ops).count (some .openLoop) =
            ops.count (some .openLoop) := List.count_cons_of_ne (by simp)
        rw [hcount, List.count_cons_self, List.length_cons]
        omega
      · by_cases hopen : op = .openLoop
        · subst hopen
          have hcount : (some Op.openLoop :: ops).count (some .closeLoop) =
              ops.count (some .closeLoop) := List.count_cons_of_ne (by simp)
          rw [hcount, List.count_cons_self] at hall
          rw [hcount, List.count_cons_self]
          cases outer with
          | nil =>
            -- the text would open more loops than it closes
            rw [List.length_nil] at hlength
            omega
          | cons first outer =>
            refine ⟨.loop pos b first.1 first.2, outer, by simp [parseFrom, hparse], ?_⟩
            rw [List.length_cons] at hlength
            omega
        · refine ⟨.single op pos b, outer, ?_, by simp [hopen, hclose, hlength]⟩
          cases op <;> simp_all [parseFrom]

end Block

theorem count_ofChar? (source : List Char) (op : Op) :
    (source.map Op.ofChar?).count (some op) = source.count op.toChar := by
  rw [List.count, List.countP_map, List.count]
  congr 1
  funext c
  rw [Function.comp_apply, Bool.eq_iff_iff, beq_iff_eq, beq_iff_eq, Op.ofChar?_eq_some_iff]

/-- No end of a balanced text opens more loops than it closes. -/
theorem Balanced.count_le {source rest : List Char} (h : Balanced source)
    (hrest : rest <:+ source) : rest.count '[' ≤ rest.count ']' := by
  obtain ⟨text, rfl⟩ := hrest
  have htext := h.2 text (List.prefix_append ..)
  have hall := h.1
  rw [List.count_append, List.count_append] at hall
  omega

theorem Balanced.count_openLoop_le {source : List Char} (h : Balanced source)
    {text : List (Option Op)} (htext : text <:+ (Program.ofChars source).ops.toList) :
    text.count (some .openLoop) ≤ text.count (some .closeLoop) := by
  obtain ⟨rest, hrest, rfl⟩ := List.suffix_map_iff.mp htext
  rw [count_ofChar?, count_ofChar?]
  exact h.count_le hrest

/-- A balanced text spells a block. -/
theorem Balanced.exists_block {source : List Char} (h : Balanced source) :
    ∃ b, Block.ofProgram? (Program.ofChars source) = some b ∧
      b.Spans (Program.ofChars source) 0 (Program.ofChars source).size := by
  have hops : (Program.ofChars source).ops.toList = source.map Op.ofChar? := rfl
  have hread : ∀ rest, rest <:+ source.map Op.ofChar? →
      rest.count (some .openLoop) ≤ rest.count (some .closeLoop) :=
    fun rest hrest => h.count_openLoop_le hrest
  obtain ⟨b, outer, hparse, hlength⟩ := Block.exists_parseFrom hread 0
  have houter : outer = [] := by
    rw [count_ofChar?, count_ofChar?] at hlength
    have hall : source.count Op.closeLoop.toChar = source.count Op.openLoop.toChar := h.1
    rw [← List.length_eq_zero_iff]
    omega
  subst houter
  refine ⟨b, by rw [Block.ofProgram?, hops, hparse], ?_⟩
  obtain ⟨hi, spans, closes⟩ := Block.spans_of_parseFrom (List.drop_zero ..) (Nat.zero_le _)
    (hops ▸ hparse)
  cases closes
  exact spans

end Brainfuck
