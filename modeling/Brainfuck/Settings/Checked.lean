import Brainfuck.Fault
import Brainfuck.Settings.Basic
import Brainfuck.Text.Bytes

/-!
# A reader of settings files that checks its cuts

The name of a section is cut out of its header by bytes: from the byte after the first one to the
byte before the last one. Here it is looked at whether there are such bytes, in this order, and
whether characters start and end at them; where not, the reader breaks off. Everything else is as in
`Brainfuck.Settings.Section` and `Brainfuck.Settings.Basic`. No line makes the reader break off,
since the first and the last character of a header are brackets, which take one byte each
(`applyFileChecked_eq`).
-/

namespace Brainfuck.Settings

/-- The text between two bytes. -/
def slice (cs : List Char) (start stop : Nat) : Except Failure (List Char) :=
  if start ≤ stop then
    match Text.cut cs start stop with
    | some piece => .ok piece
    | none => .error .crash
  else .error .crash

/-- What a header has between its brackets. -/
def innerChecked (line : List Char) : Except Failure (List Char) :=
  match Text.byteLength line with
  | 0 => .error .crash
  | last + 1 => slice line 1 last

/-- Reads a line without blanks at its ends. -/
def Line.ofTrimmedChecked (line : List Char) : Except Failure Line :=
  if line.head? ≠ some '#' ∧ isHeader line then do
    .ok (.header (Text.trim (← innerChecked line)))
  else .ok (.ofTrimmed line)

/-- Reads the lines of a text one after the other. -/
def linesChecked (content : List Char) : Except Failure (List Line) :=
  (Text.lines content).mapM fun line => Line.ofTrimmedChecked (Text.trim line)

/-- Takes over what the text of a settings file assigns, and warns of what is not valid. -/
def applyFileChecked (s : Settings) (content : List Char) :
    Except Failure (Settings × List LogRecord) := do
  let entries := assignmentsFrom sectionName.toList false (← linesChecked content)
  let (s, memoryLog) := s.applyMemorySize (lookup "memory_size".toList entries)
  let (s, timeoutLog) := s.applyTimeout (lookup "timeout_ms".toList entries)
  .ok (s, memoryLog ++ timeoutLog)

/-! ## No line breaks the reader off -/

/-- A header is what stands between two brackets. -/
theorem isHeader_iff {line : List Char} :
    isHeader line = true ↔ ∃ inner, line = '[' :: (inner ++ [']']) := by
  rw [isHeader, Bool.and_eq_true, beq_iff_eq, beq_iff_eq]
  constructor
  · rintro ⟨hfirst, hlast⟩
    obtain ⟨rest, rfl⟩ := List.head?_eq_some_iff.mp hfirst
    obtain ⟨front, hfront⟩ := List.getLast?_eq_some_iff.mp hlast
    cases front with
    | nil => cases hfront
    | cons c inner =>
      rw [List.cons_append, List.cons.injEq] at hfront
      exact ⟨inner, hfront.2 ▸ rfl⟩
  · rintro ⟨inner, rfl⟩
    exact ⟨rfl, by rw [← List.cons_append, List.getLast?_concat]⟩

/-- Both brackets of a header are one byte long. -/
theorem innerChecked_eq (inner : List Char) :
    innerChecked ('[' :: (inner ++ [']'])) = .ok inner := by
  have hlength : Text.byteLength ('[' :: (inner ++ [']'])) = 1 + Text.byteLength inner + 1 := by
    rw [Text.byteLength, Text.byteLength_append]
    exact (Nat.add_assoc 1 _ 1).symm
  have hcut : Text.cut ('[' :: (inner ++ [']'])) 1 (1 + Text.byteLength inner) = some inner :=
    Text.cut_append ['['] inner [']']
  rw [innerChecked, hlength]
  simp only [slice, hcut, if_pos (Nat.le_add_right 1 _)]

theorem Line.ofTrimmedChecked_eq (line : List Char) :
    ofTrimmedChecked line = .ok (ofTrimmed line) := by
  unfold ofTrimmedChecked
  split
  · next h =>
    obtain ⟨inner, rfl⟩ := isHeader_iff.mp h.2
    rw [innerChecked_eq, ofTrimmed, if_neg h.1, if_pos h.2, List.tail_cons, List.dropLast_concat]
    rfl
  · rfl

theorem linesChecked_eq (content : List Char) :
    linesChecked content = .ok ((Text.lines content).map Line.ofChars) := by
  simp only [linesChecked, Line.ofTrimmedChecked_eq]
  exact List.mapM_pure

/-- No text makes the reader break off. -/
theorem applyFileChecked_eq (s : Settings) (content : List Char) :
    s.applyFileChecked content = .ok (s.applyFile content) := by
  rw [applyFileChecked, linesChecked_eq]
  rfl

end Brainfuck.Settings
