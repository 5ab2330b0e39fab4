import Brainfuck.Proofs.Partners
import Mathlib.Order.Bounds.Basic

/-!
# Searches from any position

A search for a bracket can be started at any position, whether a bracket stands there or not. What
it looks for is given by counts over a stretch of the text: to the right the least position up to
which one loop more is closed than opened (`Program.exitsFrom`), to the left the greatest one from
which on one more is opened than closed (`Program.entriesTo`). It finds just that, and it says that
a bracket is missing just when there is no such position (`Program.searches_find_the_nearest`).

To the right there is one word for which this does not hold. The search starts at the word after the
given one, and after the last word of all comes the first, so from there it goes through the whole
text (`Program.search_from_last_word_starts_over`).
-/

namespace Brainfuck

namespace Program

variable {p : Program} {start pos : Nat} {ip : UInt64}

/-- The positions of the program up to which, from `start` on, one loop more is closed than
opened. -/
def exitsFrom (p : Program) (start : Nat) : Set Nat :=
  {pos | start ≤ pos ∧ pos < p.size ∧
    (p.between start (pos + 1)).count (some .closeLoop) =
      (p.between start (pos + 1)).count (some .openLoop) + 1}

/-- The positions from which on, up to `stop`, one loop more is opened than closed. -/
def entriesTo (p : Program) (stop : Nat) : Set Nat :=
  {pos | pos < stop ∧
    (p.between pos stop).count (some .openLoop) =
      (p.between pos stop).count (some .closeLoop) + 1}

/-- A search comes to the nearest of the positions that it looks for, if there is one, and otherwise
to the fault that a bracket is missing. It never crashes. -/
structure Finds (sought : Set Nat) (nearest : Nat → Prop) (missing : Fault)
    (found : Except Failure Nat) : Prop where
  ok_iff : ∀ pos, found = .ok pos ↔ nearest pos
  error_iff : found = .error (.fault missing) ↔ ∀ pos, pos ∉ sought
  ne_crash : found ≠ .error .crash

/-! ## To the right -/

theorem between_isPrefix_drop (p : Program) (lo hi : Nat) :
    p.between lo hi <+: p.ops.toList.drop lo := by
  rw [between, List.drop_take]
  exact List.take_prefix ..

/-- Where the scan to the right stops one loop more is closed, and before that nowhere. -/
theorem isLeast_of_closeFrom (h : p.closeFrom start = some pos) :
    IsLeast (p.exitsFrom start) pos := by
  rw [closeFrom_eq] at h
  obtain ⟨hle, hop, hall, hfronts⟩ := scanRight_eq_some_iff.mp h
  have hlt := lt_size_of_op?_eq_some hop
  constructor
  · refine ⟨hle, hlt, ?_⟩
    rw [between_concat hle hlt, hop, List.count_append, List.count_append, hall]
    simp
  · rintro pos' ⟨-, -, hcount⟩
    refine Nat.not_lt.mp fun hlt' => ?_
    have hfront := hfronts (p.between start (pos' + 1)) (between_isPrefix start hlt')
    omega

theorem not_mem_of_closeFrom (h : p.closeFrom start = none) (pos : Nat) :
    pos ∉ p.exitsFrom start := by
  rintro ⟨-, -, hcount⟩
  have hfront := scanRight_eq_none_iff.mp (h : p.scanRight 0 start = none) _
    (between_isPrefix_drop p start (pos + 1))
  omega

/-- The search from a word looks at the text from the word after it on. -/
theorem finds_loopExitAt (p : Program) (ip : UInt64) :
    Finds (p.exitsFrom (ip + 1).toNat) (IsLeast (p.exitsFrom (ip + 1).toNat))
      (.unmatched ip.toNat .opening) (p.loopExitAt ip) := by
  unfold loopExitAt
  cases hfound : p.closeFrom (ip + 1).toNat with
  | some close =>
    have hleast := isLeast_of_closeFrom hfound
    refine ⟨fun pos => ?_, ?_, by rintro ⟨⟩⟩
    · rw [Except.ok.injEq]
      constructor
      · rintro rfl
        exact hleast
      · exact hleast.unique
    · exact iff_of_false (by rintro ⟨⟩) fun hnone => hnone close hleast.1
  | none =>
    have hnone := not_mem_of_closeFrom hfound
    refine ⟨fun pos => ?_, iff_of_true rfl hnone, by rintro ⟨⟩⟩
    exact iff_of_false (by rintro ⟨⟩) fun hleast => hnone pos hleast.1

/-! ## To the left -/

/-- Where the scan to the left stops one loop more is opened, and after that nowhere. -/
theorem isGreatest_of_openBefore {stop : Nat} (h : p.openBefore 0 stop = some pos) :
    IsGreatest (p.entriesTo stop) pos := by
  obtain ⟨hlt, hop, hall, hbacks⟩ := openBefore_eq_some_iff.mp h
  constructor
  · refine ⟨hlt, ?_⟩
    rw [between_cons hlt (lt_size_of_op?_eq_some hop), hop, List.count_cons_self,
      List.count_cons_of_ne (by decide), hall]
  · rintro pos' ⟨-, hcount⟩
    refine Nat.not_lt.mp fun hlt' => ?_
    have hback := hbacks _ (between_isSuffix (Nat.succ_le_of_lt hlt') stop)
    omega

theorem not_mem_of_openBefore {stop : Nat} (h : p.openBefore 0 stop = none) (pos : Nat) :
    pos ∉ p.entriesTo stop := by
  rintro ⟨-, hcount⟩
  have hback := openBefore_eq_none_iff.mp h (p.between pos stop) (List.drop_suffix ..)
  omega

theorem finds_loopEntryAt (hip : ip.toNat ≤ p.size) :
    Finds (p.entriesTo ip.toNat) (IsGreatest (p.entriesTo ip.toNat))
      (.unmatched ip.toNat .closing) (p.loopEntryAt ip) := by
  rw [loopEntryAt, loopEntry, if_neg (Nat.not_lt.mpr hip)]
  cases hfound : p.openBefore 0 ip.toNat with
  | some first =>
    have hgreatest := isGreatest_of_openBefore hfound
    refine ⟨fun pos => ?_, ?_, by rintro ⟨⟩⟩
    · rw [Except.ok.injEq]
      constructor
      · rintro rfl
        exact hgreatest
      · exact hgreatest.unique
    · exact iff_of_false (by rintro ⟨⟩) fun hnone => hnone first hgreatest.1
  | none =>
    have hnone := not_mem_of_openBefore hfound
    refine ⟨fun pos => ?_, iff_of_true rfl hnone, by rintro ⟨⟩⟩
    exact iff_of_false (by rintro ⟨⟩) fun hgreatest => hnone pos hgreatest.1

/-! ## The two searches -/

theorem toNat_succ (h : ip.toNat + 1 < UInt64.size) : (ip + 1).toNat = ip.toNat + 1 := by
  rw [UInt64.toNat_add]
  exact Nat.mod_eq_of_lt h

theorem toNat_succ_last (h : ip.toNat + 1 = UInt64.size) : (ip + 1).toNat = 0 := by
  rw [UInt64.toNat_add, show ip.toNat + (1 : UInt64).toNat = UInt64.size from h]
  rfl

/-- From any word but the last the search to the right finds the least position behind it up to
which one loop more is closed than opened, and from any position up to the end of the program the
search to the left finds the greatest one before it from which on one more is opened than closed;
without such a position the bracket is reported as missing. From the last word the search to the
right does the same from the start of the program on. -/
theorem searches_find_the_nearest (p : Program) (ip : UInt64) :
    (ip.toNat + 1 < UInt64.size →
      Finds (p.exitsFrom (ip.toNat + 1)) (IsLeast (p.exitsFrom (ip.toNat + 1)))
        (.unmatched ip.toNat .opening) (p.loopExitAt ip)) ∧
    (ip.toNat + 1 = UInt64.size →
      Finds (p.exitsFrom 0) (IsLeast (p.exitsFrom 0)) (.unmatched ip.toNat .opening)
        (p.loopExitAt ip)) ∧
    (ip.toNat ≤ p.size →
      Finds (p.entriesTo ip.toNat) (IsGreatest (p.entriesTo ip.toNat))
        (.unmatched ip.toNat .closing) (p.loopEntryAt ip)) := by
  have hexit := p.finds_loopExitAt ip
  refine ⟨fun hlt => ?_, fun hlast => ?_, finds_loopEntryAt⟩
  · rwa [toNat_succ hlt] at hexit
  · rwa [toNat_succ_last hlast] at hexit

/-- From a comment inside a loop, with a loop on either side of it. -/
theorem searches_find_the_nearest_of_comment :
    let p := ofChars ['[', '[', ']', 'x', '[', ']', ']']
    (UInt64.toNat 3 + 1 < UInt64.size ∧ UInt64.toNat 3 ≤ p.size) ∧
      IsLeast (p.exitsFrom 4) 6 ∧ IsGreatest (p.entriesTo 3) 0 := by
  intro p
  have hlt : UInt64.toNat 3 + 1 < UInt64.size := by decide
  have hle : UInt64.toNat 3 ≤ p.size := by decide
  obtain ⟨right, -, left⟩ := searches_find_the_nearest p 3
  exact ⟨⟨hlt, hle⟩, ((right hlt).ok_iff 6).mp rfl, ((left hle).ok_iff 0).mp rfl⟩

/-- There is no position behind the last word, but from there the search finds the `]` at the start
of a program. -/
theorem search_from_last_word_starts_over :
    let p := ofChars [']']
    let last : UInt64 := 18446744073709551615
    p.loopExitAt last = .ok 0 ∧ (∀ pos, pos ∉ p.exitsFrom (last.toNat + 1)) ∧
      ¬ Finds (p.exitsFrom (last.toNat + 1)) (IsLeast (p.exitsFrom (last.toNat + 1)))
        (.unmatched last.toNat .opening) (p.loopExitAt last) := by
  intro p last
  have hnone : ∀ pos, pos ∉ p.exitsFrom (last.toNat + 1) := by
    rintro pos ⟨hle, hlt, -⟩
    exact absurd (Nat.lt_of_le_of_lt hle hlt) (by decide)
  have hfound : p.loopExitAt last = .ok 0 := by decide +kernel
  refine ⟨hfound, hnone, fun finds => ?_⟩
  have herror := hfound.symm.trans (finds.error_iff.mpr hnone)
  cases herror

end Program

end Brainfuck
