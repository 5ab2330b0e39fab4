import Brainfuck.Proofs.Precedence

/-!
# The tables of a settings file

Whoever writes a settings file divides it into tables, and a header may be followed on its line by a
comment. `TableLine` is a line as it is meant, and an assignment belongs to the table of the nearest
header before it (`nearest?`). The reader takes for a header only a line that ends in `]`. So it may
pass over the header of another table and be still in the section that was open before, but where it
is inside a section, the nearest header either names that section or is one that it has passed over
(`nearest?_of_inside`). An assignment in another table is therefore without effect if the header of
that table ends its line (`other_tables_do_not_count`), and need not be if a comment follows it.
-/

namespace Brainfuck

namespace Settings

/-! ## Lines as they are meant -/

/-- A text on one line. -/
structure Piece where
  text : List Char
  single : '\n' ∉ text

/-- Blanks on one line. -/
structure Gap extends Piece where
  blank : ∀ c ∈ text, Text.isBlank c = true

/-- No blanks. -/
def Gap.none : Gap :=
  ⟨⟨[], List.not_mem_nil⟩, fun _ hc => absurd hc List.not_mem_nil⟩

/-- One blank. -/
def Gap.space : Gap :=
  ⟨⟨[' '], by decide⟩, fun _ hc => List.mem_singleton.mp hc ▸ rfl⟩

/-- What stands before the equals sign of an assignment: neither the start of a header nor of a
comment. -/
structure Key extends Piece where
  plain : '=' ∉ text
  first : (Text.trimStart text).head? ≠ some '[' ∧ (Text.trimStart text).head? ≠ some '#'

/-- The header of a table. -/
structure Header where
  indent : Gap
  name : Piece
  gap : Gap
  /-- The text of the comment behind the header. -/
  note : Option Piece

/-- A line of a settings file. -/
inductive TableLine where
  | blank (gap : Gap)
  | comment (indent : Gap) (note : Piece)
  | assignment (key : Key) (value : Piece)
  | header (header : Header)

namespace Header

/-- The table that the header names. -/
def table (h : Header) : List Char :=
  Text.trim h.name.text

/-- What stands behind the closing bracket. -/
def trail (h : Header) : List Char :=
  match h.note with
  | none => h.gap.text
  | some note => h.gap.text ++ '#' :: note.text

/-- The header as it is written. -/
def chars (h : Header) : List Char :=
  h.indent.text ++ '[' :: h.name.text ++ ']' :: h.trail

/-- The line ends in `]`, apart from blanks. -/
def Closed (h : Header) : Prop :=
  (Text.trim h.chars).getLast? = some ']'

instance (h : Header) : Decidable h.Closed :=
  inferInstanceAs (Decidable (_ = _))

end Header

namespace TableLine

/-- The line as it is written. -/
def chars : TableLine → List Char
  | blank gap => gap.text
  | comment indent note => indent.text ++ '#' :: note.text
  | assignment key value => key.text ++ '=' :: value.text
  | header h => h.chars

/-- The header, if the line is one. -/
def header? : TableLine → Option Header
  | header h => some h
  | _ => none

end TableLine

/-- The text of a file with these lines. -/
def textOf (file : List TableLine) : List Char :=
  ['\n'].intercalate (file.map TableLine.chars)

/-- The nearest header before a line that follows these. -/
def nearest? (front : List TableLine) : Option Header :=
  front.reverse.findSome? TableLine.header?

theorem nearest?_append (front : List TableLine) (line : TableLine) :
    nearest? (front ++ [line]) = line.header?.or (nearest? front) := by
  rw [nearest?, List.reverse_append, List.reverse_singleton, List.findSome?_append,
    List.findSome?_singleton]
  rfl

/-! ## How the reader takes them -/

theorem Line.ofChars_eq_header {line name : List Char} (h : Line.ofChars line = .header name) :
    (Text.trimStart line).head? = some '[' ∧ (Text.trim line).getLast? = some ']' ∧
      name = Text.trim (Text.trim line).tail.dropLast := by
  rw [ofChars, ofTrimmed] at h
  split at h
  · cases h
  · split at h
    · next hheader =>
      cases h
      rw [isHeader, Bool.and_eq_true, beq_iff_eq, beq_iff_eq] at hheader
      exact ⟨Text.head?_trim line ▸ hheader.1, hheader.2, rfl⟩
    · split at h <;> cases h

namespace Header

variable {h : Header} {name : List Char}

/-- What the reader sees of a header. -/
theorem trim_chars (h : Header) :
    Text.trim h.chars = '[' :: (h.name.text ++ ']' :: Text.trimEnd h.trail) := by
  have hstart : Text.trimStart h.chars = '[' :: h.name.text ++ ']' :: h.trail := by
    rw [chars, List.append_assoc, Text.trimStart_append_of_blank h.indent.blank]
    exact Text.trimStart_cons rfl _
  rw [Text.trim, hstart, Text.trimEnd_append_cons rfl]
  rfl

/-- What the reader takes for the header of a section whose name has no bracket names that section:
if a comment made the line end in `]`, the bracket before the comment would be in the name. -/
theorem table_of_ofChars (hread : Line.ofChars h.chars = .header name) (hname : ']' ∉ name) :
    h.table = name := by
  obtain ⟨-, -, rfl⟩ := Line.ofChars_eq_header hread
  rw [trim_chars, List.tail_cons, List.dropLast_append_cons] at hname ⊢
  cases hnote : h.note with
  | none =>
    have htrail : Text.trimEnd h.trail = [] := by
      rw [trail, hnote]
      exact Text.trimEnd_append_of_blank h.gap.blank []
    rw [htrail, List.dropLast_singleton, List.append_nil]
    rfl
  | some note =>
    have htrail : Text.trimEnd h.trail = h.gap.text ++ '#' :: Text.trimEnd note.text := by
      rw [trail, hnote]
      exact Text.trimEnd_append_cons rfl _ _
    refine absurd (Text.mem_trim rfl ?_) hname
    rw [htrail, ← List.cons_append, List.dropLast_append_cons]
    simp

/-- A header that ends its line is taken for one. -/
theorem Closed.exists_header (hclosed : h.Closed) :
    ∃ name, Line.ofChars h.chars = .header name := by
  have hheader : isHeader (Text.trim h.chars) = true := by
    rw [isHeader, Bool.and_eq_true, beq_iff_eq, beq_iff_eq]
    exact ⟨by rw [trim_chars, List.head?_cons], hclosed⟩
  have hcomment : (Text.trim h.chars).head? ≠ some '#' := by
    rw [trim_chars, List.head?_cons]
    decide
  rw [Line.ofChars, Line.ofTrimmed, if_neg hcomment, if_pos hheader]
  exact ⟨_, rfl⟩

end Header

namespace TableLine

/-- A line has no line feed in it. -/
theorem newline_not_mem_chars (line : TableLine) : '\n' ∉ line.chars := by
  cases line with
  | blank gap => exact gap.single
  | comment indent note => simp [chars, indent.single, note.single]
  | assignment key value => simp [chars, key.single, value.single]
  | header h =>
    have htrail : '\n' ∉ h.trail := by
      unfold Header.trail
      cases h.note with
      | none => exact h.gap.single
      | some note => simp [h.gap.single, note.single]
    simp [chars, Header.chars, h.indent.single, h.name.single, htrail]

/-- No other line is taken for a header. -/
theorem ofChars_ne_header {line : TableLine} (hline : line.header? = none) (name : List Char) :
    Line.ofChars line.chars ≠ .header name := by
  intro hread
  obtain ⟨hstart, -, -⟩ := Line.ofChars_eq_header hread
  cases line with
  | blank gap =>
    have hnil := Text.trimStart_append_of_blank gap.blank []
    rw [List.append_nil] at hnil
    rw [chars, hnil] at hstart
    cases hstart
  | comment indent note =>
    rw [chars, Text.trimStart_append_of_blank indent.blank, Text.trimStart_cons rfl] at hstart
    cases hstart
  | assignment key value =>
    rw [chars, Text.trimStart, List.dropWhile_append] at hstart
    split at hstart
    · cases hstart
    · next hkey =>
      rw [List.head?_append, Option.or_of_isSome (by simpa using hkey)] at hstart
      exact key.first.1 hstart
  | header h => cases hline

end TableLine

/-! ## The section where the reader is -/

/-- The lines of a file as they are read. -/
def readLines (file : List TableLine) : List Line :=
  file.map fun line => Line.ofChars line.chars

theorem assignments_textOf (name : List Char) (file : List TableLine) :
    assignments name (textOf file) = assignmentsFrom name false (readLines file) := by
  rw [assignments, textOf, readLines]
  cases file with
  | nil => rfl
  | cons line file =>
    rw [Text.lines_intercalate ?_ (by simp), List.map_map]
    · rfl
    · intro text htext
      obtain ⟨line, -, rfl⟩ := List.mem_map.mp htext
      exact line.newline_not_mem_chars

/-- Where the reader is inside a section, the nearest header names it, unless the reader has passed
over that header because its line does not end with it. -/
theorem nearest?_of_inside {name : List Char} {front : List TableLine} (hname : ']' ∉ name)
    (hinside : insideAfter name false (readLines front) = true) :
    ∃ h, nearest? front = some h ∧ (h.Closed → h.table = name) := by
  induction front using List.reverseRecOn with
  | nil => cases hinside
  | append_singleton front line ih =>
    rw [readLines, List.map_append, List.map_singleton, insideAfter_concat] at hinside
    rw [nearest?_append]
    cases hheader : line.header? with
    | none =>
      rw [Option.none_or]
      refine ih ?_
      split at hinside
      · next other hread => exact absurd hread (TableLine.ofChars_ne_header hheader other)
      · exact hinside
    | some h =>
      obtain rfl : line = .header h := by
        cases line <;> cases hheader
        rfl
      refine ⟨h, rfl, fun hclosed => ?_⟩
      obtain ⟨other, hread⟩ := hclosed.exists_header
      rw [show Line.ofChars (TableLine.header h).chars = .header other from hread] at hinside
      rw [beq_iff_eq] at hinside
      exact Header.table_of_ofChars (hinside ▸ hread) hname

theorem assignmentsFrom_cons_of_outside {line : Line} (hline : ∀ other, line ≠ .header other)
    (name : List Char) (rest : List Line) :
    assignmentsFrom name false (line :: rest) = assignmentsFrom name false rest := by
  cases line with
  | header other => exact absurd rfl (hline other)
  | assignment key value => rfl
  | other => rfl

/-- Outside the section an assignment is passed over. -/
theorem assignments_textOf_of_outside {name : List Char} {front : List TableLine}
    (houtside : insideAfter name false (readLines front) = false) (key : Key) (value : Piece)
    (rest : List TableLine) :
    assignments name (textOf (front ++ .assignment key value :: rest)) =
      assignments name (textOf (front ++ rest)) := by
  have hread : readLines (front ++ .assignment key value :: rest) =
      readLines front ++ Line.ofChars (TableLine.assignment key value).chars :: readLines rest := by
    simp [readLines]
  have hread' : readLines (front ++ rest) = readLines front ++ readLines rest := by
    simp [readLines]
  rw [assignments_textOf, assignments_textOf, hread, hread', assignmentsFrom_append,
    assignmentsFrom_append, houtside,
    assignmentsFrom_cons_of_outside (TableLine.ofChars_ne_header rfl)]

theorem applyFile_congr {content content' : List Char}
    (h : assignments sectionName.toList content = assignments sectionName.toList content')
    (s : Settings) : s.applyFile content = s.applyFile content' := by
  rw [applyFile, applyFile, h]

/-- The section of the engine is isolated from the other tables of the file, as long as their headers
end their lines. An assignment before which no header stands, or whose nearest header before it names
another table and ends its line, has no influence on what is taken over from the file and what is
warned of: whatever value it assigns, and whether it is there at all. -/
theorem other_tables_do_not_count {front : List TableLine}
    (hnearest : ∀ h, nearest? front = some h → h.table ≠ sectionName.toList ∧ h.Closed)
    (key : Key) (value : Piece) (rest : List TableLine) (s : Settings) :
    (∀ value', s.applyFile (textOf (front ++ .assignment key value' :: rest)) =
      s.applyFile (textOf (front ++ .assignment key value :: rest))) ∧
    s.applyFile (textOf (front ++ rest)) =
      s.applyFile (textOf (front ++ .assignment key value :: rest)) := by
  have houtside : insideAfter sectionName.toList false (readLines front) = false := by
    rw [← Bool.not_eq_true]
    intro hinside
    obtain ⟨h, hheader, htable⟩ := nearest?_of_inside (by decide) hinside
    obtain ⟨hother, hclosed⟩ := hnearest h hheader
    exact hother (htable hclosed)
  have hgone : ∀ value, s.applyFile (textOf (front ++ .assignment key value :: rest)) =
      s.applyFile (textOf (front ++ rest)) :=
    fun value => applyFile_congr (assignments_textOf_of_outside houtside key value rest) s
  exact ⟨fun value' => (hgone value').trans (hgone value).symm, (hgone value).symm⟩

/-- An assignment to a key of the engine below the header of another table. -/
theorem other_tables_do_not_count_of_colors :
    let memory : Key := ⟨⟨"memory_size ".toList, by decide⟩, by decide, by decide⟩
    let engine : Header := ⟨.none, ⟨"engine".toList, by decide⟩, .none, none⟩
    let colors : Header := ⟨.none, ⟨" colors".toList, by decide⟩, .none, none⟩
    let front : List TableLine :=
      [.header engine, .assignment memory ⟨" 7".toList, by decide⟩, .header colors]
    nearest? front = some colors ∧ colors.table ≠ sectionName.toList ∧ colors.Closed ∧
      default.applyFile (textOf front) = (⟨7, none⟩, []) ∧
      default.applyFile (textOf front) = default.applyFile
        (textOf (front ++ [.assignment memory ⟨" 0".toList, by decide⟩])) := by
  intro memory engine colors front
  have hnearest : nearest? front = some colors := rfl
  have hother : colors.table ≠ sectionName.toList ∧ colors.Closed := by decide
  refine ⟨hnearest, hother.1, hother.2, by decide, ?_⟩
  have hgone := other_tables_do_not_count
    (fun h hh => Option.some.inj (hnearest.symm.trans hh) ▸ hother) memory
    ⟨" 0".toList, by decide⟩ [] default
  simpa using hgone.2

/-- A header that is followed by a comment is passed over: what stands in its table counts for the
engine, whose table stood before it. -/
theorem commented_header_is_passed_over :
    let memory : Key := ⟨⟨"memory_size ".toList, by decide⟩, by decide, by decide⟩
    let engine : Header := ⟨.none, ⟨"engine".toList, by decide⟩, .none, none⟩
    let other : Header :=
      ⟨.none, ⟨"other".toList, by decide⟩, .space, some ⟨" note".toList, by decide⟩⟩
    let front : List TableLine := [.header engine, .header other]
    let assigned := front ++ [.assignment memory ⟨" 5".toList, by decide⟩, .blank .none]
    nearest? front = some other ∧ other.table ≠ sectionName.toList ∧
      textOf assigned = "[engine]\n[other] # note\nmemory_size = 5\n".toList ∧
      default.applyFile (textOf assigned) = (⟨5, none⟩, []) ∧
      default.applyFile (textOf (front ++ [.blank .none])) = (default, []) := by
  refine ⟨rfl, by decide, by decide, by decide, by decide⟩

end Settings

end Brainfuck
