import Brainfuck.Proofs.PlainText
import Mathlib.Data.List.Forall2

/-!
# Undoing edits

Each edit but the storing of a byte has one that undoes it: a cell wraps around at both ends of its
range, and a move that was made leads away from a cell to which the opposite move leads back
(`Tape.attempt_of_undoes`). So edits that were all made are undone by those that undo them one by one,
the last one first, and none of these fails (`Tape.editAll_of_undoes`). The mirror image of a text
asks for just these edits, and takes a run back to where it has started
(`System.walking_back_restores`).
-/

namespace Brainfuck

namespace Tape

variable {t t' : Tape} {e e' : Edit}

/-- The first edit undoes the second. The positions that moves report do not matter. -/
inductive Edit.Undoes : Edit → Edit → Prop where
  | decrement : Undoes .decrement .increment
  | increment : Undoes .increment .decrement
  | left {ip ip' : Nat} : Undoes (.left ip) (.right ip')
  | right {ip ip' : Nat} : Undoes (.right ip) (.left ip')

theorem modify_modify (t : Tape) (f g : UInt8 → UInt8) :
    (t.modify f).modify g = t.modify (g ∘ f) := by
  refine congrArg (Tape.mk · _) (Array.ext (by simp [modify]) fun c _ _ => ?_)
  simp only [modify, Array.getElem_modify, Function.comp_apply]
  split <;> rfl

theorem decrement_increment (t : Tape) : t.increment.decrement = t := by
  have hsame : ((· - 1) ∘ (· + 1) : UInt8 → UInt8) = id := funext fun cell => by simp
  rw [increment, decrement, modify_modify, hsame, modify_id]

theorem increment_decrement (t : Tape) : t.decrement.increment = t := by
  have hsame : ((· + 1) ∘ (· - 1) : UInt8 → UInt8) = id := funext fun cell => by simp
  rw [increment, decrement, modify_modify, hsame, modify_id]

/-- An edit that was made can be undone, and then all is as it was before. -/
theorem attempt_of_undoes (h : e'.Undoes e) (ht : t.InBounds) (he : t.attempt e = .ok t') :
    t'.attempt e' = .ok t := by
  have hlt : t.pointer < t.cells.size := ht
  cases h with
  | decrement =>
    cases he
    exact congrArg Except.ok t.decrement_increment
  | increment =>
    cases he
    exact congrArg Except.ok t.increment_decrement
  | left =>
    simp only [attempt, moveRight] at he
    split at he
    · cases he
      simp [attempt, moveLeft]
    · cases he
  | right =>
    simp only [attempt, moveLeft] at he
    split at he
    · next hroom =>
      cases he
      have hback : t.pointer - 1 + 1 = t.pointer := Nat.sub_add_cancel hroom
      simp [attempt, moveRight, hback, hlt]
    · cases he

/-- Edits that were all made are undone one by one, the last one first. -/
theorem editAll_of_undoes {there back : List Edit} (ht : t.InBounds)
    (h : t.editAll there = .ok t') (hback : List.Forall₂ Edit.Undoes back.reverse there) :
    t'.editAll back = .ok t := by
  generalize hundone : back.reverse = undone at hback
  obtain rfl : back = undone.reverse := by rw [← hundone, List.reverse_reverse]
  clear hundone
  induction hback generalizing t with
  | nil =>
    cases h
    rfl
  | @cons e' e undone there hundoes _ ih =>
    obtain ⟨t₁, hattempt, hrest⟩ := exists_of_editAll_cons h
    rw [List.reverse_cons, editAll_append (ih (ht.attempt hattempt) hrest),
      editAll_cons_of_ok (attempt_of_undoes hundoes ht hattempt)]
    rfl

/-- Edits that store no byte can be undone. -/
theorem exists_undoing {there : List Edit} (h : ∀ value, .set value ∉ there) :
    ∃ back : List Edit, List.Forall₂ Edit.Undoes back.reverse there := by
  induction there with
  | nil => exact ⟨[], .nil⟩
  | cons e there ih =>
    obtain ⟨back, hback⟩ := ih fun value hmem => h value (List.mem_cons_of_mem _ hmem)
    have hone : ∃ e', Edit.Undoes e' e := by
      cases e with
      | increment => exact ⟨_, .decrement⟩
      | decrement => exact ⟨_, .increment⟩
      | set value => exact absurd (List.mem_cons_self ..) (h value)
      | right ip => exact ⟨.left 0, .left⟩
      | left ip => exact ⟨.right 0, .right⟩
    obtain ⟨e', he'⟩ := hone
    exact ⟨back ++ [e'], by simpa using ⟨he', hback⟩⟩

end Tape

/-! ## The mirror image of a text -/

/-- The character that asks for what undoes this one; comments stay. -/
def opposite : Char → Char
  | '>' => '<'
  | '<' => '>'
  | '+' => '-'
  | '-' => '+'
  | ch => ch

/-- The text from its end to its beginning, with the opposite of each character. -/
def mirror (source : List Char) : List Char :=
  source.reverse.map opposite

variable {source : List Char}

/-- The opposite of a plain character asks for what undoes it. -/
theorem PlainChar.undoes {ch : Char} (h : PlainChar ch) (ip ip' : Nat) :
    PlainChar (opposite ch) ∧
      List.Forall₂ Tape.Edit.Undoes ((Op.ofChar? (opposite ch)).bind (Op.edit? ip)).toList
        ((Op.ofChar? ch).bind (Op.edit? ip')).toList := by
  cases hop : Op.ofChar? ch with
  | none =>
    have hsame : opposite ch = ch := by
      unfold opposite
      split <;> first | rfl | cases hop
    rw [hsame, hop]
    exact ⟨h, .nil⟩
  | some op =>
    obtain rfl := Op.ofChar?_eq_some_iff.mp hop
    cases op with
    | right => exact ⟨by decide, .cons .left .nil⟩
    | left => exact ⟨by decide, .cons .right .nil⟩
    | increment => exact ⟨by decide, .cons .decrement .nil⟩
    | decrement => exact ⟨by decide, .cons .increment .nil⟩
    | print => exact absurd rfl h.1
    | read => exact absurd rfl h.2.1
    | openLoop => exact absurd rfl h.2.2.1
    | closeLoop => exact absurd rfl h.2.2.2

/-- The mirror image of a plain text, wherever it stands, asks for what undoes the text. -/
theorem Plain.mirror_undoes (h : Plain source) (ip ip' : Nat) :
    Plain (mirror source) ∧
      List.Forall₂ Tape.Edit.Undoes (editsFrom ip (mirror source)).reverse
        (editsFrom ip' source) := by
  induction source generalizing ip' with
  | nil => exact ⟨h, .nil⟩
  | cons ch source ih =>
    obtain ⟨hchar, hlater⟩ := plain_cons.mp h
    obtain ⟨hplain, hundoes⟩ := ih hlater (ip' + 1)
    have hmirror : mirror (ch :: source) = mirror source ++ [opposite ch] := by simp [mirror]
    obtain ⟨hchar', hundoes'⟩ := hchar.undoes (ip + (mirror source).length) ip'
    have hone : ∀ (o : Option Tape.Edit) (pos : Nat),
        (o.toList ++ editsFrom pos []).reverse = o.toList := by
      intro o pos
      cases o <;> rfl
    rw [hmirror, editsFrom_append, editsFrom_cons, editsFrom_cons, List.reverse_append, hone]
    have hlast : Plain [opposite ch] := plain_cons.mpr ⟨hchar', List.forall_mem_nil _⟩
    exact ⟨plain_append.mpr ⟨hplain, hlast⟩, List.rel_append hundoes' hundoes⟩

namespace System

variable {memory index index' : Nat} {stream stream' : ByteStream} {sched sched' : Nat → Act}
  {s s' : System}

/-- A run of a plain text that completes is taken back by the mirror image of the text: on as many
cells the text and its mirror image complete, with the pointer on the first cell and all cells zero. -/
theorem Runs.mirrored (hplain : Plain source)
    (h : s.Runs memory (.ofChars source) index stream sched)
    (h' : s'.Runs memory (.ofChars (source ++ mirror source)) index' stream' sched') {o : Outcome}
    (hdone : s.Destined index sched (.returns (.done o))) :
    s'.Destined index' sched'
      (.returns (.done ⟨#[], .completed, ⟨Array.replicate memory 0, 0⟩⟩)) := by
  obtain ⟨t, htape, hok, hfailed⟩ := h.of_editAll hplain
  have ht : t.InBounds := Tape.inBounds_of_blank htape
  obtain ⟨hplain', hundoes⟩ := hplain.mirror_undoes (0 + source.length) 0
  have hwhole : Plain (source ++ mirror source) := plain_append.mpr ⟨hplain, hplain'⟩
  cases hthere : t.editAll (editsFrom 0 source) with
  | error cause =>
    -- a run that fails does not complete
    cases (hfailed cause hthere _).mp ((hdone _).mpr rfl)
  | ok t₁ =>
    have hback := Tape.editAll_of_undoes ht hthere hundoes
    obtain ⟨t', htape', hok', -⟩ := h'.of_editAll hwhole
    cases htape.symm.trans htape'
    have hall : t.editAll (editsFrom 0 (source ++ mirror source)) = .ok t := by
      rw [editsFrom_append, Tape.editAll_append hthere, hback]
    have hblank : t = ⟨Array.replicate memory 0, 0⟩ := by
      unfold Tape.blank at htape
      split at htape <;> cases htape
      rfl
    rw [← hblank]
    exact hok' t hall

/-- What was done to a tape can be undone. Edits that store no byte and were all made have others
that undo them one by one, the last one first, and such edits, whatever positions they report, are
all made and leave every cell and the pointer as they were at the beginning. So if the run of a text
completes that has no `.`, `,` and brackets, then on as many cells the run of the text with its
mirror image behind it completes, and at its end the pointer is on the first cell and every cell is
zero. -/
theorem walking_back_restores :
    (∀ (t t' : Tape) (there : List Tape.Edit), t.InBounds → (∀ value, .set value ∉ there) →
      t.editAll there = .ok t' →
      (∃ back : List Tape.Edit, List.Forall₂ Tape.Edit.Undoes back.reverse there) ∧
      ∀ back : List Tape.Edit, List.Forall₂ Tape.Edit.Undoes back.reverse there →
        t'.editAll back = .ok t) ∧
    ∀ (memory index index' : Nat) (source : List Char) (stream stream' : ByteStream)
      (sched sched' : Nat → Act) (s s' : System) (o : Outcome), Plain source →
      s.Runs memory (.ofChars source) index stream sched →
      s'.Runs memory (.ofChars (source ++ mirror source)) index' stream' sched' →
      s.Destined index sched (.returns (.done o)) →
      s'.Destined index' sched'
        (.returns (.done ⟨#[], .completed, ⟨Array.replicate memory 0, 0⟩⟩)) := by
  constructor
  · intro t t' there ht hset hthere
    exact ⟨Tape.exists_undoing hset, fun back hback => Tape.editAll_of_undoes ht hthere hback⟩
  · intro memory index index' source stream stream' sched sched' s s' o hplain h h' hdone
    exact h.mirrored hplain h' hdone

/-- A cell that wraps around on the way there and on the way back, and a comment. -/
theorem walking_back_restores_of_wrapping :
    let there : List Tape.Edit := [.decrement, .right 5, .increment]
    let back : List Tape.Edit := [.decrement, .left 0, .increment]
    let source := ['-', 'x', '>', '+']
    let sched := eager 0 []
    let s := cleared 2 (.ofChars source)
    let s' := cleared 2 (.ofChars (source ++ mirror source))
    mirror source = ['-', '<', 'x', '+'] ∧
      Tape.InBounds ⟨#[0, 255], 0⟩ ∧ (∀ value, .set value ∉ there) ∧
      Tape.editAll ⟨#[0, 255], 0⟩ there = .ok ⟨#[255, 0], 1⟩ ∧
      List.Forall₂ Tape.Edit.Undoes back.reverse there ∧
      Tape.editAll ⟨#[255, 0], 1⟩ back = .ok ⟨#[0, 255], 0⟩ ∧
      Plain source ∧ s.Runs 2 (.ofChars source) 0 (.ofList []) sched ∧
      s'.Runs 2 (.ofChars (source ++ mirror source)) 0 (.ofList []) sched ∧
      s.Destined 0 sched (.returns (.done ⟨#[], .completed, ⟨#[255, 1], 1⟩⟩)) ∧
      s'.Destined 0 sched (.returns (.done ⟨#[], .completed, ⟨#[0, 0], 0⟩⟩)) := by
  intro there back source sched s s'
  have hbounds : Tape.InBounds ⟨#[0, 255], 0⟩ := Nat.zero_lt_two
  have hset : ∀ value, .set value ∉ there := by simp [there]
  have hthere : Tape.editAll ⟨#[0, 255], 0⟩ there = .ok ⟨#[255, 0], 1⟩ := by decide
  have hback : List.Forall₂ Tape.Edit.Undoes back.reverse there :=
    .cons .increment (.cons .left (.cons .decrement .nil))
  have hplain : Plain source := by decide
  have h : s.Runs 2 (.ofChars source) 0 (.ofList []) sched := runs_eager (by decide) _ _
  have h' : s'.Runs 2 (.ofChars (source ++ mirror source)) 0 (.ofList []) sched :=
    runs_eager (by decide) _ _
  have hr : (s.after (upTo sched 12)).result? 0 =
      some (.done ⟨#[], .completed, ⟨#[255, 1], 1⟩⟩) := by decide
  have hdone := (h.meets_of_result hr).destined
  exact ⟨by decide, hbounds, hset, hthere, hback,
    (walking_back_restores.1 _ _ there hbounds hset hthere).2 back hback, hplain, h, h', hdone,
    walking_back_restores.2 _ _ _ _ _ _ _ _ _ _ _ hplain h h' hdone⟩

end System

end Brainfuck
