import Brainfuck.Engine.Tabled
import Brainfuck.Proofs.Brackets
import Brainfuck.Proofs.Schedule

/-!
# Searching for a bracket and looking it up

The pass that pairs the brackets of a program and the searches of a run find the same partners, in
any text. What links them is the stack of the pass. Its entry number `depth` is what a search to the
left finds that starts from here `depth` loops deep (`Stacked`), and the entry is paired with what a
search to the right finds that starts from here as deep (`closeOf_piled`). A stray closing bracket
and an opening that is never closed need no case of their own: the stack and the depth of a search
change at the same brackets.

A run looks for a bracket only where one stands, so an engine with jump tables does what one without
them does (`System.runByTable_eq`).
-/

namespace Brainfuck

namespace Program

variable {p : Program} {pos depth start close : Nat} {stack : List Nat} {o : Option Op}
  {ops : List (Option Op)}

/-! ## One position of the pass -/

theorem pairsFrom_open (pos : Nat) (stack : List Nat) (ops : List (Option Op)) :
    pairsFrom pos stack (some .openLoop :: ops) = pairsFrom (pos + 1) (pos :: stack) ops := by
  rw [pairsFrom]

theorem pairsFrom_close_nil (pos : Nat) (ops : List (Option Op)) :
    pairsFrom pos [] (some .closeLoop :: ops) = pairsFrom (pos + 1) [] ops := by
  rw [pairsFrom]

theorem pairsFrom_close_cons (pos start : Nat) (stack : List Nat) (ops : List (Option Op)) :
    pairsFrom pos (start :: stack) (some .closeLoop :: ops) =
      (start, pos) :: pairsFrom (pos + 1) stack ops := by
  rw [pairsFrom]

theorem pairsFrom_other (hopen : o ≠ some .openLoop) (hclose : o ≠ some .closeLoop) (pos : Nat)
    (stack : List Nat) (ops : List (Option Op)) :
    pairsFrom pos stack (o :: ops) = pairsFrom (pos + 1) stack ops := by
  rw [pairsFrom]
  · exact hopen
  · exact hclose

/-- A pair closes where the pass stands or later. -/
theorem le_of_mem_pairsFrom (ops : List (Option Op)) :
    ∀ {pos stack pair}, pair ∈ pairsFrom pos stack ops → pos ≤ pair.2 := by
  induction ops with
  | nil => intro pos stack pair hpair; cases hpair
  | cons o ops ih =>
    intro pos stack pair hpair
    by_cases hopen : o = some .openLoop
    · subst hopen
      rw [pairsFrom_open] at hpair
      exact Nat.le_of_succ_le (ih hpair)
    · by_cases hclose : o = some .closeLoop
      · subst hclose
        cases stack with
        | nil =>
          rw [pairsFrom_close_nil] at hpair
          exact Nat.le_of_succ_le (ih hpair)
        | cons start stack =>
          rw [pairsFrom_close_cons] at hpair
          rcases List.mem_cons.mp hpair with rfl | hlater
          · exact Nat.le_refl _
          · exact Nat.le_of_succ_le (ih hlater)
      · rw [pairsFrom_other hopen hclose] at hpair
        exact Nat.le_of_succ_le (ih hpair)

/-! ## The partner of an opening bracket -/

/-- The positions on the stack lie before this one, each behind those below it. -/
def Piled (pos : Nat) (stack : List Nat) : Prop :=
  (pos :: stack).Pairwise (· > ·)

namespace Piled

theorem push (h : Piled pos stack) : Piled (pos + 1) (pos :: stack) := by
  refine List.pairwise_cons.mpr ⟨?_, h⟩
  intro x hx
  rcases List.mem_cons.mp hx with rfl | hx
  · exact Nat.lt_succ_self _
  · exact Nat.lt_succ_of_lt ((List.pairwise_cons.mp h).1 x hx)

theorem pass (h : Piled pos stack) : Piled (pos + 1) stack :=
  List.pairwise_cons.mpr ⟨fun x hx => Nat.lt_succ_of_lt ((List.pairwise_cons.mp h).1 x hx),
    (List.pairwise_cons.mp h).2⟩

theorem pop (h : Piled pos (start :: stack)) : Piled (pos + 1) stack :=
  pass (h.sublist ((List.sublist_cons_self start stack).cons_cons pos))

theorem lt (h : Piled pos (start :: stack)) : start < pos :=
  (List.pairwise_cons.mp h).1 start List.mem_cons_self

/-- The top of the stack is none of those below it. -/
theorem ne_below (h : Piled pos (close :: stack)) (hstart : stack[depth]? = some start) :
    close ≠ start := by
  have hbelow : start < close :=
    (List.pairwise_cons.mp (List.pairwise_cons.mp h).2).1 start (List.mem_of_getElem? hstart)
  omega

end Piled

/-- A bracket on the stack is paired with the `]` that a search finds which starts as deep as the
bracket lies. -/
theorem closeOf_piled (hops : p.ops.toList.drop pos = ops) (hstack : Piled pos stack)
    (hstart : stack[depth]? = some start) :
    ((pairsFrom pos stack ops).find? (·.1 == start)).map (·.2) = p.scanRight depth pos := by
  induction ops generalizing pos stack depth with
  | nil =>
    rw [scanRight_of_size_le (Block.size_le_of_drop hops)]
    rfl
  | cons o ops ih =>
    obtain ⟨hlt, hop, hrest⟩ := Block.op?_of_drop hops
    by_cases hopen : o = some .openLoop
    · subst hopen
      rw [pairsFrom_open, scanRight_open hop]
      exact ih hrest hstack.push hstart
    · by_cases hclose : o = some .closeLoop
      · subst hclose
        cases stack with
        | nil => cases hstart
        | cons top stack =>
          rw [pairsFrom_close_cons]
          cases depth with
          | zero =>
            obtain rfl : top = start := Option.some.inj hstart
            rw [List.find?_cons_of_pos (by simp), scanRight_close_zero hop]
            rfl
          | succ depth =>
            -- the top of the stack is paired here, and it is another bracket
            have hne : top ≠ start := hstack.ne_below hstart
            rw [List.find?_cons_of_neg (by simpa using hne), scanRight_close_succ hop]
            exact ih hrest hstack.pop hstart
      · rw [pairsFrom_other hopen hclose,
          scanRight_other hlt (by rwa [hop]) (by rwa [hop])]
        exact ih hrest hstack.pass hstart

/-- A bracket that the pass has still before it is paired with the `]` that a search from behind the
bracket finds. -/
theorem closeOf_ahead (hops : p.ops.toList.drop pos = ops) (hstack : Piled pos stack)
    (hle : pos ≤ start) (hstart : p.op? start = some .openLoop) :
    ((pairsFrom pos stack ops).find? (·.1 == start)).map (·.2) = p.scanRight 0 (start + 1) := by
  induction ops generalizing pos stack with
  | nil =>
    have hlt := Nat.lt_of_lt_of_le (lt_size_of_op?_eq_some hstart) (Block.size_le_of_drop hops)
    exact absurd hlt (Nat.not_lt.mpr hle)
  | cons o ops ih =>
    obtain ⟨-, hop, hrest⟩ := Block.op?_of_drop hops
    rcases Nat.eq_or_lt_of_le hle with rfl | hlater
    · obtain rfl : some .openLoop = o := hstart.symm.trans hop
      rw [pairsFrom_open]
      exact closeOf_piled hrest hstack.push rfl
    · by_cases hopen : o = some .openLoop
      · subst hopen
        rw [pairsFrom_open]
        exact ih hrest hstack.push hlater
      · by_cases hclose : o = some .closeLoop
        · subst hclose
          cases stack with
          | nil =>
            rw [pairsFrom_close_nil]
            exact ih hrest hstack.pass hlater
          | cons top stack =>
            have hne : top ≠ start := Nat.ne_of_lt (Nat.lt_of_lt_of_le hstack.lt hle)
            rw [pairsFrom_close_cons, List.find?_cons_of_neg (by simpa using hne)]
            exact ih hrest hstack.pop hlater
        · rw [pairsFrom_other hopen hclose]
          exact ih hrest hstack.pass hlater

/-- The table closes a loop where the search does. -/
theorem closeOf?_eq (hop : p.op? start = some .openLoop) :
    p.closeOf? start = p.closeFrom (start + 1) := by
  rw [closeOf?, pairs, closeFrom_eq]
  exact closeOf_ahead rfl (List.pairwise_singleton _ 0) (Nat.zero_le start) hop

/-! ## The partner of a closing bracket -/

/-- The stack of the pass when it stands at the position: each entry is what a search to the left
finds which starts as deep as the entry lies. -/
def Stacked (p : Program) (pos : Nat) (stack : List Nat) : Prop :=
  ∀ depth, stack[depth]? = p.openBefore depth pos

namespace Stacked

theorem push (h : Stacked p pos stack) (hop : p.op? pos = some .openLoop) :
    Stacked p (pos + 1) (pos :: stack) := by
  intro depth
  cases depth with
  | zero => rw [openBefore_open_zero hop]; rfl
  | succ depth => rw [openBefore_open_succ hop, ← h depth]; rfl

theorem pop (h : Stacked p pos stack) (hop : p.op? pos = some .closeLoop) :
    Stacked p (pos + 1) stack.tail := by
  intro depth
  rw [openBefore_close hop, ← h (depth + 1), List.getElem?_tail]

theorem pass (h : Stacked p pos stack) (hopen : p.op? pos ≠ some .openLoop)
    (hclose : p.op? pos ≠ some .closeLoop) : Stacked p (pos + 1) stack := by
  intro depth
  rw [openBefore_other hopen hclose, h depth]

end Stacked

/-- A closing bracket that the pass has still before it is paired with the `[` that a search from the
bracket finds. -/
theorem openOf_ahead (hops : p.ops.toList.drop pos = ops) (hstack : Stacked p pos stack)
    (hle : pos ≤ close) (hclosed : p.op? close = some .closeLoop) :
    ((pairsFrom pos stack ops).find? (·.2 == close)).map (·.1) = p.openBefore 0 close := by
  induction ops generalizing pos stack with
  | nil =>
    have hlt := Nat.lt_of_lt_of_le (lt_size_of_op?_eq_some hclosed) (Block.size_le_of_drop hops)
    exact absurd hlt (Nat.not_lt.mpr hle)
  | cons o ops ih =>
    obtain ⟨-, hop, hrest⟩ := Block.op?_of_drop hops
    rcases Nat.eq_or_lt_of_le hle with rfl | hlater
    · obtain rfl : some .closeLoop = o := hclosed.symm.trans hop
      rw [← hstack 0]
      cases stack with
      | nil =>
        -- whatever is paired later closes behind this bracket
        rw [pairsFrom_close_nil, List.find?_eq_none.mpr]
        · rfl
        · intro pair hpair
          have hbehind := le_of_mem_pairsFrom ops hpair
          simp only [beq_iff_eq]
          omega
      | cons top stack =>
        rw [pairsFrom_close_cons, List.find?_cons_of_pos (by simp)]
        rfl
    · by_cases hopen : o = some .openLoop
      · subst hopen
        rw [pairsFrom_open]
        exact ih hrest (hstack.push hop) hlater
      · by_cases hclose : o = some .closeLoop
        · subst hclose
          have hpop := hstack.pop hop
          cases stack with
          | nil =>
            rw [pairsFrom_close_nil]
            exact ih hrest hpop hlater
          | cons top stack =>
            rw [pairsFrom_close_cons, List.find?_cons_of_neg (by simpa using Nat.ne_of_lt hlater)]
            exact ih hrest hpop hlater
        · rw [pairsFrom_other hopen hclose]
          exact ih hrest (hstack.pass (by rwa [hop]) (by rwa [hop])) hlater

/-- The table opens a loop where the search does. -/
theorem openOf?_eq (hop : p.op? close = some .closeLoop) :
    p.openOf? close = p.openBefore 0 close := by
  have hstart : Stacked p 0 [] := fun depth => by cases depth <;> rfl
  rw [openOf?, pairs]
  exact openOf_ahead rfl hstart (Nat.zero_le close) hop

theorem exitByTable_eq (hop : p.op? start = some .openLoop) :
    p.exitByTable start = p.loopExit start := by
  rw [exitByTable, closeOf?_eq hop]
  rfl

theorem entryByTable_eq (hop : p.op? close = some .closeLoop) :
    p.entryByTable close = p.loopEntry close := by
  have hle : ¬ p.size < close := Nat.not_lt.mpr (Nat.le_of_lt (lt_size_of_op?_eq_some hop))
  rw [entryByTable, openOf?_eq hop]
  exact (if_neg hle).symm

end Program

/-! ## Runs with a jump table -/

/-- Where the machine stands at the operator, it crosses loops by the table as by a search. -/
theorem Machine.performByTable_eq {p : Program} {m : Machine} {op : Op}
    (hop : p.op? m.ip = some op) (cell : UInt8) :
    m.performByTable p cell op = m.perform p cell op := by
  obtain ⟨tape, output, ip⟩ := m
  cases op with
  | openLoop =>
    have hexit : p.exitByTable ip = p.loopExit ip := Program.exitByTable_eq hop
    rw [performByTable, hexit]
    rfl
  | closeLoop =>
    have hentry : p.entryByTable ip = p.loopEntry ip := Program.entryByTable_eq hop
    rw [performByTable, hentry]
    rfl
  | right | left | increment | decrement | print | read => rfl

theorem Worker.cycleByTable_eq (running : Bool) (queue : ByteQueue) (w : Worker) :
    w.cycleByTable running queue = w.cycle running queue := by
  obtain ⟨program, machine, stalled, phase⟩ := w
  cases hop : program.op? machine.ip with
  | none => simp only [cycleByTable, cycle, hop]
  | some op =>
    cases hcell : machine.tape.current? with
    | none => simp only [cycleByTable, cycle, hop, hcell]
    | some cell =>
      have hperform := Machine.performByTable_eq hop cell
      cases hresult : machine.perform program cell op <;> rw [hresult] at hperform <;>
        cases op <;> simp only [cycleByTable, cycle, hop, hcell, hperform, hresult]

theorem Worker.advanceByTable_eq (running : Bool) (queue : ByteQueue) (w : Worker) :
    w.advanceByTable running queue = w.advance running queue := by
  obtain ⟨program, machine, stalled, phase⟩ := w
  cases phase with
  | ready => exact cycleByTable_eq running queue ⟨program, machine, stalled, .ready⟩
  | fetching | announcing | awaiting | printing => rfl

theorem Call.advanceByTable_eq (e : Engine) (c : Call) : c.advanceByTable e = c.advance e := by
  obtain ⟨manner, program, stage⟩ := c
  cases stage with
  | active w =>
    rw [advanceByTable, Worker.advanceByTable_eq]
    rfl
  | requested | rejected | taken | cleared | launching | lowering | releasing | returned => rfl

namespace System

theorem actByTable_eq (s : System) (a : Act) : s.actByTable a = s.act a := by
  cases a with
  | advance index =>
    cases hcall : s.calls[index]? with
    | none => simp [actByTable, hcall, act_advance_absent hcall]
    | some c => simp [actByTable, hcall, act_advance_eq hcall, Call.advanceByTable_eq]
  | call | refuse | crash | push | stop => rfl

/-- An engine with jump tables does the same under every schedule, and shows the same. -/
theorem runByTable_eq (s : System) (acts : List Act) : s.runByTable acts = s.run acts := by
  induction acts generalizing s with
  | nil => rfl
  | cons a acts ih => simp only [runByTable, run, actByTable_eq, ih]

end System

/-- To search for the other end of a loop when it is crossed, and to look it up in a table that one
pass over the text has made beforehand, is the same in every text, whether its brackets match or not.
A bracket with a partner leads to its partner, and one without is reported. So an engine that looks
up the ends of its loops does what an engine does that searches for them, and shows the same, under
every schedule. -/
theorem table_replaces_search (p : Program) :
    (∀ ip, p.op? ip = some .openLoop → p.loopExit ip =
      match p.closeOf? ip with
      | some close => .ok close
      | none => .error (.fault (.unmatched ip .opening))) ∧
    (∀ ip, p.op? ip = some .closeLoop → p.loopEntry ip =
      match p.openOf? ip with
      | some start => .ok start
      | none => .error (.fault (.unmatched ip .closing))) ∧
    ∀ (s : System) (acts : List Act), s.runByTable acts = s.run acts :=
  ⟨fun _ hop => (Program.exitByTable_eq hop).symm, fun _ hop => (Program.entryByTable_eq hop).symm,
    System.runByTable_eq⟩

/-- A stray closing bracket, an opening one that is never closed, and a loop. -/
theorem table_replaces_search_of_strays :
    let p : Program := .ofChars [']', '[', 'x', '[', ']']
    p.op? 0 = some .closeLoop ∧ p.loopEntry 0 = .error (.fault (.unmatched 0 .closing)) ∧
      p.op? 1 = some .openLoop ∧ p.loopExit 1 = .error (.fault (.unmatched 1 .opening)) ∧
      p.op? 3 = some .openLoop ∧ p.loopExit 3 = .ok 4 := by
  intro p
  obtain ⟨exits, entries, -⟩ := table_replaces_search p
  exact ⟨rfl, entries 0 rfl, rfl, exits 1 rfl, rfl, exits 3 rfl⟩

end Brainfuck
