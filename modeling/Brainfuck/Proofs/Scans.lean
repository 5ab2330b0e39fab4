import Brainfuck.Proofs.Brackets

/-!
# When the scans for a bracket find nothing

A scan counts how deep it is in loops and stops where it would come out of the loop it has started
in. It never does exactly if on every stretch that it passes the brackets of its own kind make up for
those of the other: that is said by the counts of brackets in the beginnings of the text behind a `[`
(`Program.Unclosed`) and in the ends of the text before a `]` (`Program.Unopened`), whatever stray
brackets lie further on. In a balanced text no bracket is without its partner.
-/

namespace Brainfuck

theorem forall_prefix_cons {α : Type} {holds : List α → Prop} (x : α) (xs : List α) :
    (∀ text, text <+: x :: xs → holds text) ↔
      holds [] ∧ ∀ text, text <+: xs → holds (x :: text) := by
  constructor
  · intro h
    exact ⟨h _ List.nil_prefix, fun text htext => h _ ((List.prefix_cons_inj x).mpr htext)⟩
  · rintro ⟨hnil, hcons⟩ text htext
    rcases List.prefix_cons_iff.mp htext with rfl | ⟨text', rfl, htext'⟩
    · exact hnil
    · exact hcons text' htext'

theorem forall_suffix_concat {α : Type} {holds : List α → Prop} (x : α) (xs : List α) :
    (∀ text, text <:+ xs ++ [x] → holds text) ↔
      holds [] ∧ ∀ text, text <:+ xs → holds (text ++ [x]) := by
  constructor
  · intro h
    refine ⟨h _ List.nil_suffix, fun text htext => h _ ?_⟩
    obtain ⟨front, rfl⟩ := htext
    exact ⟨front, (List.append_assoc ..).symm⟩
  · rintro ⟨hnil, hcons⟩ text htext
    rcases List.suffix_concat_iff.mp htext with rfl | ⟨text', rfl, htext'⟩
    · exact hnil
    · exact hcons text' htext'

namespace Program

variable {p : Program} {ip pos depth : Nat}

/-- The scan to the right finds nothing exactly if no beginning of the text from there on closes more
loops than it opens, apart from the `depth` loops that it may close beside. -/
theorem scanRight_eq_none_iff : p.scanRight depth pos = none ↔
    ∀ text, text <+: p.ops.toList.drop pos →
      text.count (some .closeLoop) ≤ text.count (some .openLoop) + depth := by
  generalize hops : p.ops.toList.drop pos = ops
  induction ops generalizing pos depth with
  | nil =>
    have hnone := scanRight_of_size_le (Block.size_le_of_drop hops) depth
    refine iff_of_true hnone fun text htext => ?_
    rw [List.prefix_nil.mp htext]
    exact Nat.zero_le _
  | cons o ops ih =>
    obtain ⟨hlt, hop, hrest⟩ := Block.op?_of_drop hops
    rw [forall_prefix_cons]
    by_cases hopen : o = some .openLoop
    · subst hopen
      rw [scanRight_open hop, ih hrest]
      simp [Nat.add_assoc, Nat.add_comm 1]
    · by_cases hclose : o = some .closeLoop
      · subst hclose
        cases depth with
        | zero =>
          -- the scan ends here, and so does the shortest text that closes too much
          rw [scanRight_close_zero hop]
          refine iff_of_false nofun fun h => ?_
          have hfirst := h.2 [] List.nil_prefix
          simp at hfirst
        | succ depth =>
          rw [scanRight_close_succ hop, ih hrest]
          simp [← Nat.add_assoc]
      · rw [scanRight_other hlt (by rwa [hop]) (by rwa [hop]), ih hrest]
        simp [List.count_cons_of_ne, hopen, hclose]

theorem take_succ_of_lt (hlt : pos < p.size) :
    p.ops.toList.take (pos + 1) = p.ops.toList.take pos ++ [p.op? pos] := by
  have hget : p.ops[pos]? = some p.ops[pos] := Array.getElem?_eq_getElem hlt
  rw [List.take_add_one, Array.getElem?_toList, op?, hget]
  rfl

/-- The scan to the left finds nothing exactly if no end of the text up to there opens more loops
than it closes, apart from the `depth` loops that it may open beside. -/
theorem openBefore_eq_none_iff : p.openBefore depth pos = none ↔
    ∀ text, text <:+ p.ops.toList.take pos →
      text.count (some .openLoop) ≤ text.count (some .closeLoop) + depth := by
  induction pos generalizing depth with
  | zero =>
    refine iff_of_true rfl fun text htext => ?_
    rw [List.take_zero] at htext
    rw [List.suffix_nil.mp htext]
    exact Nat.zero_le _
  | succ pos ih =>
    by_cases hlt : pos < p.size
    · rw [take_succ_of_lt hlt, forall_suffix_concat]
      by_cases hclose : p.op? pos = some .closeLoop
      · rw [openBefore_close hclose, ih, hclose]
        simp [← Nat.add_assoc, Nat.add_right_comm]
      · by_cases hopen : p.op? pos = some .openLoop
        · cases depth with
          | zero =>
            rw [openBefore_open_zero hopen, hopen]
            refine iff_of_false nofun fun h => ?_
            have hfirst := h.2 [] List.nil_suffix
            simp at hfirst
          | succ depth =>
            rw [openBefore_open_succ hopen, ih, hopen]
            simp [← Nat.add_assoc]
        · rw [openBefore_other hopen hclose, ih]
          simp [List.count_cons_of_ne, hopen, hclose]
    · -- past the end of the program the scan meets nothing
      have hle : p.ops.toList.length ≤ pos := by
        rw [Array.length_toList]
        exact Nat.not_lt.mp hlt
      have hnone : p.op? pos = none := by
        cases hop : p.op? pos with
        | none => rfl
        | some op => exact absurd (lt_size_of_op?_eq_some hop) hlt
      rw [openBefore_other (by simp [hnone]) (by simp [hnone]), ih, List.take_of_length_le hle,
        List.take_of_length_le (Nat.le_succ_of_le hle)]

/-! ## Brackets without a partner -/

/-- No `]` behind the position `ip` closes a loop that is opened at `ip`: no beginning of the text
behind it closes more loops than it opens. -/
def Unclosed (p : Program) (ip : Nat) : Prop :=
  ∀ text, text <+: p.ops.toList.drop (ip + 1) →
    text.count (some .closeLoop) ≤ text.count (some .openLoop)

/-- No `[` before the position `ip` opens a loop that is closed at `ip`: no end of the text before it
opens more loops than it closes. -/
def Unopened (p : Program) (ip : Nat) : Prop :=
  ∀ text, text <:+ p.ops.toList.take ip →
    text.count (some .openLoop) ≤ text.count (some .closeLoop)

theorem loopExit_eq_error_iff {failure : Failure} : p.loopExit ip = .error failure ↔
    failure = .fault (.unmatched ip .opening) ∧ p.Unclosed ip := by
  have hnone : p.closeFrom (ip + 1) = none ↔ p.Unclosed ip := scanRight_eq_none_iff
  rw [← hnone, loopExit]
  cases p.closeFrom (ip + 1) with
  | none => simp [eq_comm]
  | some pos => simp

theorem loopEntry_eq_error_iff {failure : Failure} (hip : ip ≤ p.size) :
    p.loopEntry ip = .error failure ↔
      failure = .fault (.unmatched ip .closing) ∧ p.Unopened ip := by
  have hnone : p.openBefore 0 ip = none ↔ p.Unopened ip := openBefore_eq_none_iff
  rw [← hnone, loopEntry, if_neg (Nat.not_lt.mpr hip)]
  cases p.openBefore 0 ip with
  | none => simp [eq_comm]
  | some pos => simp

end Program

/-! ## Texts whose brackets match -/

namespace Balanced

variable {source : List Char} {ip : Nat}

/-- No beginning of a balanced text closes more loops than it opens. -/
theorem count_closeLoop_le (h : Balanced source) {text : List (Option Op)}
    (htext : text <+: (Program.ofChars source).ops.toList) :
    text.count (some .closeLoop) ≤ text.count (some .openLoop) := by
  obtain ⟨front, hfront, rfl⟩ := List.prefix_map_iff.mp htext
  rw [count_ofChar?, count_ofChar?]
  exact h.2 front hfront

/-- A balanced text closes as many loops as it opens. -/
theorem count_closeLoop_eq (h : Balanced source) :
    (Program.ofChars source).ops.toList.count (some .closeLoop) =
      (Program.ofChars source).ops.toList.count (some .openLoop) := by
  have hops : (Program.ofChars source).ops.toList = source.map Op.ofChar? := rfl
  rw [hops, count_ofChar?, count_ofChar?]
  exact h.1

/-- Every `[` of a balanced text is closed: what follows it closes the loop, since all before it
closes no more than it opens. -/
theorem not_unclosed (h : Balanced source)
    (hop : (Program.ofChars source).op? ip = some .openLoop) :
    ¬ (Program.ofChars source).Unclosed ip := by
  intro hunclosed
  have hfront := h.count_closeLoop_le (List.take_prefix ip _)
  have hrest := hunclosed _ (List.prefix_refl _)
  have hall := h.count_closeLoop_eq
  rw [← List.take_append_drop (ip + 1) (Program.ofChars source).ops.toList,
    Program.take_succ_of_lt (Program.lt_size_of_op?_eq_some hop), hop] at hall
  simp only [List.count_append, List.count_singleton_self] at hall
  rw [List.count_singleton, if_neg (by decide)] at hall
  omega

/-- Every `]` of a balanced text is opened: what precedes it opens the loop, since all up to it
closes no more than it opens. -/
theorem not_unopened (h : Balanced source)
    (hop : (Program.ofChars source).op? ip = some .closeLoop) :
    ¬ (Program.ofChars source).Unopened ip := by
  intro hunopened
  have hfront := h.count_closeLoop_le (List.take_prefix (ip + 1) _)
  have hrest := hunopened _ (List.suffix_refl _)
  rw [Program.take_succ_of_lt (Program.lt_size_of_op?_eq_some hop), hop] at hfront
  simp only [List.count_append, List.count_singleton_self] at hfront
  rw [List.count_singleton, if_neg (by decide)] at hfront
  omega

end Balanced

end Brainfuck
