import Brainfuck.Proofs.Brackets
import Brainfuck.Proofs.Runs
import Brainfuck.Tape.Edit

/-!
# Texts that only edit the tape

A text without `.`, `,` and brackets (`Plain`) asks for one edit of the tape with each of its
operators (`editsFrom`) and for nothing else. Wherever it stands in a program, the machine that comes
to its beginning makes these edits one after the other, and stands behind it when all of them could be
made (`Sequential.exists_path_of_editAll`) or at the first that fails. So what a run of such a text
comes to is what its edits make of a blank tape (`System.Runs.of_editAll`).
-/

namespace Brainfuck

/-- What an operator at position `ip` asks of the tape, if that is all that it does. -/
def Op.edit? (ip : Nat) : Op → Option Tape.Edit
  | .right => some (.right ip)
  | .left => some (.left ip)
  | .increment => some .increment
  | .decrement => some .decrement
  | .print | .read | .openLoop | .closeLoop => none

/-- A character that prints nothing, reads nothing and is no bracket. -/
def PlainChar (ch : Char) : Prop :=
  ch ≠ '.' ∧ ch ≠ ',' ∧ ch ≠ '[' ∧ ch ≠ ']'

instance (ch : Char) : Decidable (PlainChar ch) :=
  inferInstanceAs (Decidable (_ ∧ _))

/-- A text that prints nothing, reads nothing and has no loops. -/
def Plain (source : List Char) : Prop :=
  ∀ ch ∈ source, PlainChar ch

instance (source : List Char) : Decidable (Plain source) :=
  List.decidableBAll PlainChar source

/-- The edits for which a text asks that stands at position `ip`. -/
def editsFrom (ip : Nat) (source : List Char) : List Tape.Edit :=
  (source.zipIdx ip).filterMap fun c => (Op.ofChar? c.1).bind (Op.edit? c.2)

/-- The positions of the operators of a text that stands at position `ip`. -/
def operatorsFrom (ip : Nat) (source : List Char) : List Nat :=
  (source.zipIdx ip).filterMap fun c => (Op.ofChar? c.1).map fun _ => c.2

/-- The text stands in the program from position `ip` on. -/
def Program.Spells (p : Program) (ip : Nat) (source : List Char) : Prop :=
  source.map Op.ofChar? <+: p.ops.toList.drop ip

variable {p : Program} {ip : Nat} {ch : Char} {source : List Char} {t t' : Tape} {e : Tape.Edit}
  {output : Array UInt8} {input : List UInt8} {cause : Fault}

/-! ## One character -/

theorem plain_cons : Plain (ch :: source) ↔ PlainChar ch ∧ Plain source :=
  List.forall_mem_cons

theorem plain_append {later : List Char} : Plain (source ++ later) ↔ Plain source ∧ Plain later :=
  List.forall_mem_append

theorem editsFrom_cons (ip : Nat) (ch : Char) (source : List Char) : editsFrom ip (ch :: source) =
    ((Op.ofChar? ch).bind (Op.edit? ip)).toList ++ editsFrom (ip + 1) source := by
  rw [editsFrom, List.zipIdx_cons, List.filterMap_cons]
  cases h : (Op.ofChar? ch).bind (Op.edit? ip) <;> rfl

theorem editsFrom_append (ip : Nat) (source later : List Char) : editsFrom ip (source ++ later) =
    editsFrom ip source ++ editsFrom (ip + source.length) later := by
  rw [editsFrom, List.zipIdx_append, List.filterMap_append]
  rfl

theorem operatorsFrom_cons (ip : Nat) (ch : Char) (source : List Char) :
    operatorsFrom ip (ch :: source) =
      ((Op.ofChar? ch).map fun _ => ip).toList ++ operatorsFrom (ip + 1) source := by
  rw [operatorsFrom, List.zipIdx_cons, List.filterMap_cons]
  cases Op.ofChar? ch <;> rfl

/-- An operator of a plain text is an edit. -/
theorem PlainChar.exists_edit (h : PlainChar ch) {op : Op} (hop : Op.ofChar? ch = some op)
    (ip : Nat) : ∃ e, op.edit? ip = some e := by
  obtain ⟨hprint, hread, hopen, hclose⟩ := h
  obtain rfl := Op.ofChar?_eq_some_iff.mp hop
  cases op with
  | right | left | increment | decrement => exact ⟨_, rfl⟩
  | print => exact absurd rfl hprint
  | read => exact absurd rfl hread
  | openLoop => exact absurd rfl hopen
  | closeLoop => exact absurd rfl hclose

/-- An operator that edits the tape does nothing else but to go on. -/
theorem Machine.perform_of_edit? {op : Op} (h : op.edit? ip = some e) (p : Program) (cell : UInt8)
    (output : Array UInt8) : Machine.perform p cell ⟨t, output, ip⟩ op =
      match t.attempt e with
      | .ok t => .ok ⟨t, output, ip + 1⟩
      | .error cause => .error (.fault cause) := by
  cases op with
  | right | left | increment | decrement => cases h; rfl
  | print | read | openLoop | closeLoop => cases h

theorem Program.Spells.cons (h : p.Spells ip (ch :: source)) :
    ip < p.size ∧ p.op? ip = Op.ofChar? ch ∧ p.Spells (ip + 1) source := by
  obtain ⟨rest, hrest⟩ := h
  obtain ⟨hlt, hop, hdrop⟩ := Block.op?_of_drop hrest.symm
  exact ⟨hlt, hop, rest, hdrop.symm⟩

theorem Program.Spells.append {later : List Char} (h : p.Spells ip (source ++ later)) :
    p.Spells ip source ∧ p.Spells (ip + source.length) later := by
  obtain ⟨rest, hrest⟩ := h
  rw [List.map_append, List.append_assoc] at hrest
  refine ⟨⟨_, hrest⟩, rest, ?_⟩
  rw [← List.drop_drop, ← hrest, List.drop_left' (List.length_map ..)]

theorem Program.spells_ofChars (front source back : List Char) :
    (Program.ofChars (front ++ (source ++ back))).Spells front.length source := by
  refine ⟨back.map Op.ofChar?, ?_⟩
  have hops : (Program.ofChars (front ++ (source ++ back))).ops.toList =
      front.map Op.ofChar? ++ (source.map Op.ofChar? ++ back.map Op.ofChar?) := by
    simp [Program.ofChars]
  rw [hops, List.drop_left' (List.length_map ..)]

namespace Sequential

/-- At an operator that edits the tape the machine makes the edit and goes on, or fails with it. -/
theorem step_of_edit {op : Op} (hop : p.op? ip = some op) (he : op.edit? ip = some e)
    (ht : t.InBounds) : step p ⟨⟨t, output, ip⟩, input⟩ =
      match t.attempt e with
      | .ok t => .next ⟨⟨t, output, ip + 1⟩, input⟩
      | .error cause => .failed (.fault cause) := by
  have hread : op ≠ .read := by
    rintro rfl
    cases he
  obtain ⟨cell, hcell⟩ := ht.exists_current?
  have hperform := Machine.perform_of_edit? (t := t) he p cell output
  cases hattempt : t.attempt e with
  | ok t' =>
    rw [hattempt] at hperform
    exact Does.step_eq (.performs (s := ⟨⟨t, output, ip⟩, input⟩) hop hread hcell hperform) ht
  | error cause =>
    rw [hattempt] at hperform
    exact Does.step_eq (.fails (s := ⟨⟨t, output, ip⟩, input⟩) hop hread hcell hperform) ht

/-! ## A whole text -/

/-- The machine that comes to a plain text makes its edits, if none of them fails, and comes to what
follows the text, with just the operators of the text completed. -/
theorem exists_path_of_editAll (hplain : Plain source) (hspells : p.Spells ip source)
    (ht : t.InBounds) (h : t.editAll (editsFrom ip source) = .ok t') (output : Array UInt8)
    (input : List UInt8) : ∃ done,
      Path p source.length ⟨⟨t, output, ip⟩, input⟩ done
        ⟨⟨t', output, ip + source.length⟩, input⟩ ∧
      done.map (·.ip) = operatorsFrom ip source := by
  induction source generalizing t ip with
  | nil =>
    cases h
    exact ⟨[], .nil, rfl⟩
  | cons ch source ih =>
    obtain ⟨hlt, hop, hspells'⟩ := hspells.cons
    obtain ⟨hchar, hplain'⟩ := plain_cons.mp hplain
    have hlength : ip + (ch :: source).length = ip + 1 + source.length := by
      rw [List.length_cons]
      omega
    rw [operatorsFrom_cons, hlength]
    rw [editsFrom_cons] at h
    cases hch : Op.ofChar? ch with
    | none =>
      rw [hch] at h hop
      have hstep : step p ⟨⟨t, output, ip⟩, input⟩ = .next ⟨⟨t, output, ip + 1⟩, input⟩ :=
        Does.step_eq (s := ⟨⟨t, output, ip⟩, input⟩) (.comment hlt hop) ht
      obtain ⟨done, path, hdone⟩ := ih hplain' hspells' ht h
      have hpath := Path.cons hstep path
      rw [completion?, hop] at hpath
      exact ⟨done, hpath, hdone⟩
    | some op =>
      rw [hch] at h hop
      obtain ⟨e, he⟩ := hchar.exists_edit hch ip
      rw [Option.bind_some, he, Option.toList_some, List.singleton_append] at h
      have hstep : step p ⟨⟨t, output, ip⟩, input⟩ = _ := step_of_edit hop he ht
      obtain ⟨t₁, hattempt, hrest⟩ := Tape.exists_of_editAll_cons h
      rw [hattempt] at hstep
      obtain ⟨done, path, hdone⟩ := ih hplain' hspells' (ht.attempt hattempt) hrest
      refine ⟨_, .cons hstep path, ?_⟩
      rw [completion?, hop, List.map_append, hdone]
      rfl

/-- Edits of a text that fail do so at one of its characters. -/
theorem exists_failing_edit (hplain : Plain source)
    (h : t.editAll (editsFrom ip source) = .error cause) : ∃ k op e t', k < source.length ∧
      source[k]?.bind Op.ofChar? = some op ∧ op.edit? (ip + k) = some e ∧
      t.editAll (editsFrom ip (source.take k)) = .ok t' ∧ t'.attempt e = .error cause := by
  induction source generalizing t ip with
  | nil => cases h
  | cons ch source ih =>
    obtain ⟨hchar, hplain'⟩ := plain_cons.mp hplain
    rw [editsFrom_cons] at h
    -- a failure further on is one character later for the whole text
    have later : ∀ {t₁ : Tape}, t.editAll ((Op.ofChar? ch).bind (Op.edit? ip)).toList = .ok t₁ →
        ∃ k op e t', k < (ch :: source).length ∧
          (ch :: source)[k]?.bind Op.ofChar? = some op ∧ op.edit? (ip + k) = some e ∧
          t.editAll (editsFrom ip ((ch :: source).take k)) = .ok t' ∧
          t'.attempt e = .error cause := by
      intro t₁ hfirst
      rw [Tape.editAll_append hfirst] at h
      obtain ⟨k, op, e, t', hk, hop, he, hok, hfails⟩ := ih hplain' h
      refine ⟨k + 1, op, e, t', Nat.succ_lt_succ hk, hop, ?_, ?_, hfails⟩
      · rw [← he, Nat.add_assoc, Nat.add_comm 1]
      · rw [List.take_succ_cons, editsFrom_cons, Tape.editAll_append hfirst, hok]
    cases hch : Op.ofChar? ch with
    | none => exact later (by rw [hch]; rfl)
    | some op =>
      obtain ⟨e, he⟩ := hchar.exists_edit hch ip
      rw [hch, Option.bind_some, he, Option.toList_some] at h later
      cases hattempt : t.attempt e with
      | ok t₁ => exact later (by rw [Tape.editAll_cons_of_ok hattempt]; rfl)
      | error cause' =>
        rw [List.singleton_append, Tape.editAll, hattempt] at h
        cases h
        exact ⟨0, op, e, t, Nat.zero_lt_succ _, hch, he, rfl, hattempt⟩

/-- The machine that comes to a plain text of which an edit fails makes the edits before it and fails
there, with just the operators before it completed. -/
theorem exists_path_of_failing {k : Nat} {op : Op} (hplain : Plain source)
    (hspells : p.Spells ip source) (ht : t.InBounds) (hk : k < source.length)
    (hop : source[k]?.bind Op.ofChar? = some op) (he : op.edit? (ip + k) = some e)
    (hok : t.editAll (editsFrom ip (source.take k)) = .ok t') (hfails : t'.attempt e = .error cause)
    (output : Array UInt8) (input : List UInt8) : ∃ done,
      Path p k ⟨⟨t, output, ip⟩, input⟩ done ⟨⟨t', output, ip + k⟩, input⟩ ∧
      Ends p ⟨⟨t', output, ip + k⟩, input⟩ (.failed cause) ∧
      done.map (·.ip) = operatorsFrom ip (source.take k) := by
  have hlength : (source.take k).length = k := List.length_take_of_le (Nat.le_of_lt hk)
  rw [← List.take_append_drop k source] at hspells
  obtain ⟨hbefore, hbehind⟩ := hspells.append
  rw [hlength, List.drop_eq_getElem_cons hk] at hbehind
  rw [List.getElem?_eq_getElem hk] at hop
  obtain ⟨done, path, hdone⟩ := exists_path_of_editAll
    (fun ch hch => hplain ch (List.mem_of_mem_take hch)) hbefore ht hok output input
  rw [hlength] at path
  have hstep : step p ⟨⟨t', output, ip + k⟩, input⟩ = _ :=
    step_of_edit (hbehind.cons.2.1.trans hop) he (path.inBounds ht)
  rw [hfails] at hstep
  exact ⟨done, path, ends_failed_iff.mpr hstep, hdone⟩

end Sequential

/-- A run of a plain text comes to what its edits make of a blank tape, or fails as they do. -/
theorem System.Runs.of_editAll {memory index : Nat} {stream : ByteStream} {sched : Nat → Act}
    {s : System} (h : s.Runs memory (.ofChars source) index stream sched) (hplain : Plain source) :
    ∃ t, Tape.blank memory = .ok t ∧
      (∀ t', t.editAll (editsFrom 0 source) = .ok t' →
        s.Destined index sched (.returns (.done ⟨#[], .completed, t'⟩))) ∧
      ∀ cause, t.editAll (editsFrom 0 source) = .error cause →
        s.Destined index sched (.returns (.failed cause)) := by
  obtain ⟨m, hstart⟩ := h.exists_start
  obtain ⟨t, htape, rfl⟩ := Machine.start_eq_ok hstart
  have ht : t.InBounds := Tape.inBounds_of_blank htape
  have hspells : (Program.ofChars source).Spells 0 source := by
    have hwhole := Program.spells_ofChars [] source []
    rwa [List.nil_append, List.append_nil] at hwhole
  have pursues := h.pursues hstart
  refine ⟨t, htape, fun t' hok => ?_, fun cause hfailed => ?_⟩
  · obtain ⟨done, path, -⟩ := Sequential.exists_path_of_editAll hplain hspells ht hok #[] []
    have hend : (Program.ofChars source).size ≤ 0 + source.length :=
      Nat.le_of_eq (by rw [Program.size_ofChars, Nat.zero_add])
    have ends := Sequential.Ends.of_size_le (s := ⟨⟨t', #[], 0 + source.length⟩, []⟩) hend
      (path.inBounds ht)
    rw [Machine.outcome, if_pos hend] at ends
    exact pursues.destined_of_ends (k := 0) path ends
  · obtain ⟨k, op, e, t', hk, hop, he, hok, hfails⟩ :=
      Sequential.exists_failing_edit hplain hfailed
    obtain ⟨done, path, ends, -⟩ := Sequential.exists_path_of_failing hplain hspells ht hk hop he
      hok hfails #[] []
    exact pursues.destined_of_ends (k := 0) path ends

end Brainfuck
