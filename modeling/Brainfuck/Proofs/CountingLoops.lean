import Brainfuck.Proofs.NetChange
import Mathlib.Data.Int.ModEq

/-!
# Loops that count down

A loop whose body is a plain text that comes back to where it has started and takes one from the cell
there is carried out once for each unit of that cell. One pass adds to each cell the number that
`netChange` gives, whatever the cell holds (`repeated`), and the `]` finds a counter that is one
less, so `v` passes add `v` times that number (`exists_path_of_rounds`, by induction on the counter).
A pass goes over the same places as the one before it. So if the pointer stays on the tape it does so
in every pass, and otherwise already the first one fails.
-/

namespace Brainfuck

open StraightLine

variable {p : Program} {ip : Nat} {source body : List Char} {t t' : Tape} {v : UInt8}
  {output : Array UInt8} {input : List UInt8}

/-- The text between the brackets goes back as far as it goes on, and takes one from the cell at which
it starts. -/
structure Counts (body : List Char) : Prop where
  plain : Plain body
  returns : body.count '>' = body.count '<'
  takes : netChange body 0 body.length ≡ -1 [ZMOD 256]

/-- The text in brackets. -/
def looped (body : List Char) : List Char :=
  '[' :: (body ++ [']'])

/-- The tape after so many passes over a text that comes back to where it has started. -/
def repeated (t : Tape) (body : List Char) (count : Nat) : Tape :=
  ⟨t.cells.mapIdx fun c cell =>
    .ofInt (cell.toNat + count * netChange body (c - t.pointer) body.length), t.pointer⟩

/-- The pointer is where it was, the counter is zero, and every other cell has been increased as
often as the counter said by what the text adds to it. -/
structure Multiplied (body : List Char) (count : UInt8) (t t' : Tape) : Prop where
  pointer : t'.pointer = t.pointer
  size : t'.size = t.size
  counter : t'.current? = some 0
  cells : ∀ (c : Nat) (cell : UInt8), c ≠ t.pointer → t.cells[c]? = some cell →
    t'.cells[c]? =
      some (.ofInt (cell.toNat + count.toNat * netChange body (c - t.pointer) body.length))

/-! ## The brackets of a loop -/

namespace Program.Spells

/-- A plain character is no bracket. -/
theorem not_bracket {ch : Char} (h : p.Spells ip (ch :: source)) (hplain : PlainChar ch) :
    p.op? ip ≠ some .openLoop ∧ p.op? ip ≠ some .closeLoop := by
  obtain ⟨-, hop, -⟩ := h.cons
  have hother : ∀ op : Op, ch ≠ op.toChar → p.op? ip ≠ some op := by
    intro op hne heq
    exact hne (Op.ofChar?_eq_some_iff.mp (hop.symm.trans heq))
  exact ⟨hother .openLoop hplain.2.2.1, hother .closeLoop hplain.2.2.2⟩

/-- The scan to the right passes over a plain text. -/
theorem scanRight_eq (h : p.Spells ip source) (hplain : Plain source) (depth : Nat) :
    p.scanRight depth ip = p.scanRight depth (ip + source.length) := by
  induction source generalizing ip with
  | nil => rfl
  | cons ch source ih =>
    obtain ⟨hlt, -, hlater⟩ := h.cons
    obtain ⟨hchar, hplain'⟩ := plain_cons.mp hplain
    obtain ⟨hopen, hclose⟩ := h.not_bracket hchar
    rw [scanRight_other hlt hopen hclose, ih hlater hplain', List.length_cons,
      Nat.add_right_comm, ← Nat.add_assoc]

/-- The scan to the left passes over a plain text. -/
theorem openBefore_eq (h : p.Spells ip source) (hplain : Plain source) (depth : Nat) :
    p.openBefore depth (ip + source.length) = p.openBefore depth ip := by
  induction source generalizing ip with
  | nil => rfl
  | cons ch source ih =>
    obtain ⟨-, -, hlater⟩ := h.cons
    obtain ⟨hchar, hplain'⟩ := plain_cons.mp hplain
    obtain ⟨hopen, hclose⟩ := h.not_bracket hchar
    rw [List.length_cons, ← Nat.add_assoc, Nat.add_right_comm, ih hlater hplain',
      openBefore_other hopen hclose]

/-- Both brackets of a loop around a plain text find each other. -/
theorem looped (h : p.Spells ip (looped body)) (hplain : Plain body) :
    p.op? ip = some .openLoop ∧ p.Spells (ip + 1) body ∧
      p.op? (ip + 1 + body.length) = some .closeLoop ∧
      p.loopExit ip = .ok (ip + 1 + body.length) ∧
      p.loopEntry (ip + 1 + body.length) = .ok ip := by
  obtain ⟨-, hopen, hlater⟩ := h.cons
  obtain ⟨hbody, hend⟩ := hlater.append
  obtain ⟨hlt, hclose, -⟩ := hend.cons
  refine ⟨hopen, hbody, hclose, ?_, ?_⟩
  · rw [loopExit, closeFrom_eq, hbody.scanRight_eq hplain, scanRight_close_zero hclose]
  · rw [loopEntry, if_neg (Nat.lt_asymm hlt), hbody.openBefore_eq hplain,
      openBefore_open_zero hopen]

end Program.Spells

/-! ## Many passes -/

theorem ofInt_eq_of_modEq {x y : Int} (h : x ≡ y [ZMOD 256]) : UInt8.ofInt x = .ofInt y := by
  have hmod : x % 2 ^ 8 = y % 2 ^ 8 := h
  rw [UInt8.ofInt, UInt8.ofInt, hmod]

theorem ofInt_toNat_add (x y : Int) : UInt8.ofInt ((UInt8.ofInt x).toNat + y) = .ofInt (x + y) := by
  rw [UInt8.ofInt_add, UInt8.ofInt_add, ofInt_toNat]

theorem size_repeated (t : Tape) (body : List Char) (count : Nat) :
    (repeated t body count).size = t.size := by
  simp [repeated, Tape.size]

theorem Counts.drift_length (h : Counts body) : drift body body.length = 0 := by
  rw [drift, List.take_length, h.returns, Int.sub_self]

/-- One pass. -/
theorem Counts.passed_eq (h : Counts body) (t : Tape) :
    passed t body body.length = repeated t body 1 := by
  rw [passed, repeated, h.drift_length]
  simp

theorem repeated_zero (t : Tape) (body : List Char) : repeated t body 0 = t := by
  refine congrArg (Tape.mk · _) (Array.ext (by simp) fun c _ _ => ?_)
  simp [ofInt_toNat]

/-- One pass and so many more. -/
theorem repeated_succ (t : Tape) (body : List Char) (count : Nat) :
    repeated (repeated t body 1) body count = repeated t body (count + 1) := by
  refine congrArg (Tape.mk · _) (Array.ext (by simp [repeated]) fun c _ _ => ?_)
  have hmore : ∀ x y : Int, x + (1 : Nat) * y + count * y = x + (count + 1 : Nat) * y := by
    intro x y
    rw [Int.add_assoc, ← Int.add_mul, ← Int.natCast_add, Nat.add_comm 1]
  simp only [repeated, Array.getElem_mapIdx, ofInt_toNat_add, hmore]

/-- Each pass takes one from the counter. -/
theorem Counts.current?_repeated (h : Counts body) (hv : t.current? = some v) (count : Nat) :
    (repeated t body count).current? = some (.ofInt (v.toNat - count)) := by
  have hsame : (v.toNat : Int) + count * netChange body 0 body.length ≡ v.toNat - count
      [ZMOD 256] := by
    rw [Int.sub_eq_add_neg, ← Int.mul_neg_one]
    exact (h.takes.mul_left _).add_left _
  have hcell : t.cells[t.pointer]? = some v := hv
  simp only [Tape.current?, repeated, Array.getElem?_mapIdx, hcell, Option.map_some, Int.sub_self]
  rw [ofInt_eq_of_modEq hsame]

/-- As many passes as the counter says. -/
theorem Counts.multiplied (h : Counts body) (hv : t.current? = some v) :
    Multiplied body v t (repeated t body v.toNat) where
  pointer := rfl
  size := size_repeated t body v.toNat
  counter := by
    rw [h.current?_repeated hv, Int.sub_self]
    rfl
  cells c cell _ hcell := by
    simp [repeated, hcell]

namespace Sequential

/-- From behind the `[` the machine makes one pass, and at the `]` it goes back or on. -/
theorem exists_path_of_pass (hcounts : Counts body) (h : p.Spells ip (looped body))
    (ht : t.InBounds) (hv : t.current? = some v)
    (hon : StaysFrom t.size t.pointer body body.length) (output : Array UInt8)
    (input : List UInt8) : ∃ done,
      Path p (body.length + 1) ⟨⟨t, output, ip + 1⟩, input⟩ done
        ⟨⟨repeated t body 1, output,
          if v = 1 then ip + 1 + body.length + 1 else ip + 1⟩, input⟩ ∧
      done.map (·.ip) = operatorsFrom (ip + 1) body ++ [ip + 1 + body.length] := by
  obtain ⟨-, hbody, hclose, -, hentry⟩ := h.looped hcounts.plain
  have hall := editAll_take hcounts.plain (Nat.le_refl _) hon (ip + 1)
  rw [List.take_length, hcounts.passed_eq] at hall
  obtain ⟨done, path, hdone⟩ :=
    exists_path_of_editAll hcounts.plain hbody ht hall output input
  have hcell : (repeated t body 1).current? = some (v - 1) := by
    rw [hcounts.current?_repeated hv, ofInt_sub, ofInt_toNat]
    rfl
  have hperform : Machine.perform p (v - 1)
      ⟨repeated t body 1, output, ip + 1 + body.length⟩ .closeLoop =
      .ok ⟨repeated t body 1, output, if v = 1 then ip + 1 + body.length + 1 else ip + 1⟩ := by
    have hzero : v - 1 = 0 ↔ v = 1 := by rw [UInt8.sub_eq_iff_eq_add, UInt8.zero_add]
    by_cases hone : v = 1
    · simp only [Machine.perform, if_pos (hzero.mpr hone), if_pos hone]
    · simp only [Machine.perform, if_neg (mt hzero.mp hone), if_neg hone, hentry]
  have hstep := Does.step_eq (.performs (s := ⟨⟨repeated t body 1, output, ip + 1 + body.length⟩,
    input⟩) hclose (by decide) hcell hperform) (path.inBounds ht)
  refine ⟨_, path.snoc hstep, ?_⟩
  rw [completion?, hclose, List.map_append, hdone]
  rfl

/-- The machine makes one pass for each unit of the counter and falls out of the loop. -/
theorem exists_path_of_rounds {count : Nat} (hcounts : Counts body) (h : p.Spells ip (looped body))
    (ht : t.InBounds) (hv : t.current? = some v) (hcount : v.toNat = count + 1)
    (hon : StaysFrom t.size t.pointer body body.length) (output : Array UInt8)
    (input : List UInt8) : ∃ n done,
      Path p n ⟨⟨t, output, ip + 1⟩, input⟩ done
        ⟨⟨repeated t body (count + 1), output, ip + 1 + body.length + 1⟩, input⟩ ∧
      done.map (·.ip) = (List.replicate (count + 1)
        (operatorsFrom (ip + 1) body ++ [ip + 1 + body.length])).flatten := by
  induction count generalizing t v with
  | zero =>
    obtain rfl : v = 1 := UInt8.toNat_inj.mp hcount
    obtain ⟨done, path, hdone⟩ := exists_path_of_pass hcounts h ht hv hon output input
    rw [if_pos rfl] at path
    exact ⟨_, done, path, by simpa using hdone⟩
  | succ count ih =>
    have hne : v ≠ 1 := by
      rintro rfl
      cases hcount
    obtain ⟨done, path, hdone⟩ := exists_path_of_pass hcounts h ht hv hon output input
    rw [if_neg hne] at path
    have hv' : (repeated t body 1).current? = some (v - 1) := by
      rw [hcounts.current?_repeated hv, ofInt_sub, ofInt_toNat]
      rfl
    have hcount' : (v - 1).toNat = count + 1 := by
      have hone : (1 : UInt8) ≤ v := by
        rw [UInt8.le_iff_toNat_le, hcount]
        exact Nat.le_add_left ..
      rw [UInt8.toNat_sub_of_le _ _ hone, hcount]
      rfl
    -- the next pass starts on another tape, but at the same place and with as many cells
    have hon' : StaysFrom (repeated t body 1).size (repeated t body 1).pointer body body.length := by
      rw [size_repeated]
      exact hon
    obtain ⟨n, done', path', hdone'⟩ := ih (path.inBounds ht) hv' hcount' hon'
    rw [repeated_succ] at path'
    refine ⟨_, _, path.trans path', ?_⟩
    rw [List.map_append, hdone, hdone', ← List.flatten_cons, ← List.replicate_succ]

/-- At the `[` the machine skips the loop or goes into it. -/
theorem exists_path_of_bracket (hcounts : Counts body) (h : p.Spells ip (looped body))
    (ht : t.InBounds) (hv : t.current? = some v) (output : Array UInt8) (input : List UInt8) :
    ∃ done,
      Path p 1 ⟨⟨t, output, ip⟩, input⟩ done
        ⟨⟨t, output, if v = 0 then ip + 1 + body.length + 1 else ip + 1⟩, input⟩ ∧
      done.map (·.ip) = [ip] := by
  obtain ⟨hopen, -, -, hexit, -⟩ := h.looped hcounts.plain
  have hperform : Machine.perform p v ⟨t, output, ip⟩ .openLoop =
      .ok ⟨t, output, if v = 0 then ip + 1 + body.length + 1 else ip + 1⟩ := by
    by_cases hzero : v = 0
    · simp only [Machine.perform, if_pos hzero, hexit]
    · simp only [Machine.perform, if_neg hzero]
  have hstep := Does.step_eq (.performs (s := ⟨⟨t, output, ip⟩, input⟩) hopen (by decide) hv
    hperform) ht
  refine ⟨_, .single hstep, ?_⟩
  rw [completion?, hopen]
  rfl

/-- The machine that comes to the `[` comes out behind the `]`, if the pointer stays on the tape in
the passes that there are. -/
theorem exists_path_of_loop (hcounts : Counts body) (h : p.Spells ip (looped body))
    (ht : t.InBounds) (hv : t.current? = some v)
    (hon : v ≠ 0 → StaysFrom t.size t.pointer body body.length) (output : Array UInt8)
    (input : List UInt8) : ∃ n done,
      Path p n ⟨⟨t, output, ip⟩, input⟩ done
        ⟨⟨repeated t body v.toNat, output, ip + (looped body).length⟩, input⟩ ∧
      done.map (·.ip) = ip :: (List.replicate v.toNat
        (operatorsFrom (ip + 1) body ++ [ip + 1 + body.length])).flatten := by
  obtain ⟨done, path, hdone⟩ := exists_path_of_bracket hcounts h ht hv output input
  have hbehind : ip + (looped body).length = ip + 1 + body.length + 1 := by
    simp only [looped, List.length_cons, List.length_append, List.length_nil]
    omega
  rw [hbehind]
  by_cases hzero : v = 0
  · subst hzero
    rw [if_pos rfl] at path
    rw [UInt8.toNat_zero, repeated_zero]
    exact ⟨1, done, path, hdone⟩
  · have hne : v.toNat ≠ 0 := fun heq => hzero (UInt8.toNat_inj.mp heq)
    obtain ⟨count, hcount⟩ := Nat.exists_eq_succ_of_ne_zero hne
    obtain ⟨n, done', path', hdone'⟩ :=
      exists_path_of_rounds hcounts h ht hv hcount (hon hzero) output input
    rw [if_neg hzero] at path
    rw [hcount]
    refine ⟨_, _, path.trans path', ?_⟩
    rw [List.map_append, hdone, hdone']
    rfl

/-- If the pointer would leave the tape and there is a pass, the first one fails where the pointer
does so first. -/
theorem exists_path_of_failing_pass (hcounts : Counts body) (h : p.Spells ip (looped body))
    (ht : t.InBounds) (hv : t.current? = some v) (hne : v ≠ 0)
    (hoff : ¬ StaysFrom t.size t.pointer body body.length) (output : Array UInt8)
    (input : List UInt8) : ∃ k ch n done, body[k]? = some ch ∧
      StaysFrom t.size t.pointer body k ∧ ¬ StaysFrom t.size t.pointer body (k + 1) ∧
      Path p n ⟨⟨t, output, ip⟩, input⟩ done ⟨⟨passed t body k, output, ip + 1 + k⟩, input⟩ ∧
      Ends p ⟨⟨passed t body k, output, ip + 1 + k⟩, input⟩
        (.failed (.offTape (ip + 1 + k) (t.pointer + drift body k).toNat ch)) ∧
      done.map (·.ip) = ip :: operatorsFrom (ip + 1) (body.take k) := by
  obtain ⟨done, path, hdone⟩ := exists_path_of_bracket hcounts h ht hv output input
  rw [if_neg hne] at path
  obtain ⟨-, hbody, -⟩ := h.looped hcounts.plain
  obtain ⟨k, hk, hon, hnext⟩ := exists_last_from ht hoff
  obtain ⟨op, e, hch, he, hfails⟩ := hon.exists_failing hnext (ip + 1 + k)
  have hop : body[k]?.bind Op.ofChar? = some op := by
    rw [hch, Option.bind_some, Op.ofChar?_toChar]
  have hok := editAll_take hcounts.plain (Nat.le_of_lt hk) hon (ip + 1)
  obtain ⟨done', path', ends, hdone'⟩ :=
    exists_path_of_failing hcounts.plain hbody ht hk hop he hok hfails output input
  refine ⟨k, op.toChar, _, _, hch, hon, hnext, path.trans path', ends, ?_⟩
  rw [List.map_append, hdone, hdone']
  rfl

end Sequential

/-! ## Runs -/

namespace System

variable {index : Nat} {program : Program} {stream : ByteStream} {sched : Nat → Act} {s : System}

/-- At some time the call has completed the operators at these positions and no others, and its
machine is this one. -/
def GetsTo (index : Nat) (sched : Nat → Act) (s : System) (ips : List Nat) (m : Machine) : Prop :=
  ∃ time, (s.after (upTo sched time)).machine? index = some m ∧
    (s.completions index (upTo sched time)).map (·.ip) = ips

theorem Pursues.getsTo {m m' : Machine} {n : Nat} {done : List Completion} {rest : List UInt8}
    (h : s.Pursues program index m stream sched)
    (path : Sequential.Path program n ⟨m, []⟩ done ⟨m', rest⟩) :
    s.GetsTo index sched (done.map (·.ip)) m' := by
  obtain ⟨time, hmachine, hdone⟩ := h.exists_machine (k := 0) path
  exact ⟨time, hmachine, by rw [hdone]⟩

/-- A loop that counts down multiplies. Let the text between the brackets move, add and take only, go
back as far as it goes on, and take one from the cell at which it starts, and let a run come to the
`[` with the pointer on a cell that holds `v`. If the pointer stays on the tape in a pass over the
text, then the run completes the `[`, makes exactly `v` passes, each of them with the `]` at its end,
and comes out behind the `]`, with no output, the pointer on the same cell, this cell zero, and every
other one increased by `v` times what the text adds to it, modulo 256. If the pointer would leave the
tape, then nothing happens when `v` is zero, and otherwise the run fails in the first pass, at the
first move that leaves the tape. -/
theorem counting_loop_multiplies (hcounts : Counts body) (hloop : program.Spells ip (looped body))
    (hv : t.current? = some v) (h : s.Pursues program index ⟨t, output, ip⟩ stream sched) :
    (StaysFrom t.size t.pointer body body.length → ∃ t', Multiplied body v t t' ∧
      s.GetsTo index sched (ip :: (List.replicate v.toNat
          (operatorsFrom (ip + 1) body ++ [ip + 1 + body.length])).flatten)
        ⟨t', output, ip + (looped body).length⟩) ∧
    (¬ StaysFrom t.size t.pointer body body.length → v = 0 →
      s.GetsTo index sched [ip] ⟨t, output, ip + (looped body).length⟩) ∧
    (¬ StaysFrom t.size t.pointer body body.length → v ≠ 0 → ∃ k ch, body[k]? = some ch ∧
      StaysFrom t.size t.pointer body k ∧ ¬ StaysFrom t.size t.pointer body (k + 1) ∧
      s.GetsTo index sched (ip :: operatorsFrom (ip + 1) (body.take k))
        ⟨passed t body k, output, ip + 1 + k⟩ ∧
      s.Destined index sched (.returns
        (.failed (.offTape (ip + 1 + k) (t.pointer + drift body k).toNat ch)))) := by
  have ht : t.InBounds := h.inBounds
  refine ⟨fun hon => ?_, fun hoff hzero => ?_, fun hoff hne => ?_⟩
  · obtain ⟨n, done, path, hdone⟩ :=
      Sequential.exists_path_of_loop hcounts hloop ht hv (fun _ => hon) output []
    exact ⟨_, hcounts.multiplied hv, hdone ▸ h.getsTo path⟩
  · subst hzero
    obtain ⟨n, done, path, hdone⟩ :=
      Sequential.exists_path_of_loop hcounts hloop ht hv (fun hne => absurd rfl hne) output []
    have hgets := h.getsTo path
    rw [hdone, UInt8.toNat_zero, repeated_zero] at hgets
    exact hgets
  · obtain ⟨k, ch, n, done, hch, hon, hnext, path, ends, hdone⟩ :=
      Sequential.exists_path_of_failing_pass hcounts hloop ht hv hne hoff output []
    exact ⟨k, ch, hch, hon, hnext, hdone ▸ h.getsTo path, h.destined_of_ends (k := 0) path ends⟩

/-- Three is multiplied by three and added to 250. On one cell there is no room for that, which only
matters if the counter is not zero. -/
theorem counting_loop_multiplies_of_three :
    let body := ['-', '>', '+', '+', '+', 'x', '<']
    let program : Program := .ofChars (['.'] ++ (looped body ++ [',']))
    let sched := eager 0 []
    let m : Machine := ⟨⟨#[3, 250], 0⟩, #[], 1⟩
    let zero : Machine := ⟨⟨#[0], 0⟩, #[], 1⟩
    let one : Machine := ⟨⟨#[1], 0⟩, #[], 1⟩
    Counts body ∧ program.Spells 1 (looped body) ∧
      (resume 2 program m .empty).Pursues program 0 m (.ofList []) sched ∧
      (resume 1 program zero .empty).Pursues program 0 zero (.ofList []) sched ∧
      (resume 1 program one .empty).Pursues program 0 one (.ofList []) sched ∧
      StaysFrom 2 0 body 7 ∧ ¬ StaysFrom 1 0 body 7 ∧
      (∃ t', Multiplied body 3 m.tape t' ∧ t'.cells[1]? = some 3 ∧
        (resume 2 program m .empty).GetsTo 0 sched
          (1 :: (List.replicate 3 [2, 3, 4, 5, 6, 8, 9]).flatten) ⟨t', #[], 10⟩) ∧
      (resume 1 program zero .empty).GetsTo 0 sched [1] { zero with ip := 10 } ∧
      (resume 1 program one .empty).Destined 0 sched (.returns (.failed (.offTape 3 0 '>'))) := by
  intro body program sched m zero one
  have hcounts : Counts body := ⟨by decide, by decide, by decide⟩
  have hloop : program.Spells 1 (looped body) := Program.spells_ofChars ['.'] _ [',']
  have pursues : ∀ (memory : Nat) (m : Machine), m.tape.InBounds →
      (resume memory program m .empty).Pursues program 0 m (.ofList []) sched :=
    fun memory m hm => pursues_resume hm (steady_eager 0 [])
      (receives_eager (resume memory program m .empty) 0 [])
  have h := pursues 2 m Nat.zero_lt_two
  have hzero := pursues 1 zero Nat.zero_lt_one
  have hone := pursues 1 one Nat.zero_lt_one
  have hon : StaysFrom 2 0 body 7 := by decide
  have hoff : ¬ StaysFrom 1 0 body 7 := by decide
  obtain ⟨t', hmultiplied, hgets⟩ := (counting_loop_multiplies (v := 3) hcounts hloop rfl h).1 hon
  have hskips := (counting_loop_multiplies hcounts hloop rfl hzero).2.1 hoff rfl
  obtain ⟨k, ch, hch, hk, hnext, -, hfails⟩ :=
    (counting_loop_multiplies hcounts hloop rfl hone).2.2 hoff (by decide)
  obtain rfl : k = 1 := by
    have hlt : ¬ 2 ≤ k := fun hle => absurd (hk.mono hle) (by decide)
    have hne : k ≠ 0 := by
      rintro rfl
      exact absurd hnext (by decide)
    omega
  cases hch
  have hcell : t'.cells[1]? = some 3 :=
    (hmultiplied.cells 1 250 (by decide) rfl).trans (by decide)
  exact ⟨hcounts, hloop, h, hzero, hone, hon, hoff, ⟨t', hmultiplied, hcell, hgets⟩, hskips,
    hfails⟩

end System

end Brainfuck
