import Brainfuck.Proofs.Precedence
import Brainfuck.Settings.Checked
import Mathlib.Data.List.Forall2

/-!
# What a settings file does

A line is a header, an assignment or neither, and `Line.Spells` says which by the signs that stand in
it, without the way in which the reader looks for them. An assignment takes effect if it stands in a
section of the engine and is the last one there to its key (`EffectiveAt`). There is at most one such
assignment to a key, and the reader finds it (`lookup_eq_some_iff`): the lookup gives what the places
of the lines say, and every line says what it spells. So the settings after a file, and the warnings
about it, are determined by two values at most, and a line that is no header and does not take effect
might as well be missing (`file_does_what_it_assigns`).
-/

namespace Brainfuck

namespace Settings

/-! ## Lines by what stands in them -/

/-- The value that a text stands for: what is between its quotes, if it has one at both ends, and
else the text itself. -/
inductive Unquoted : List Char → List Char → Prop where
  | quoted (value : List Char) : Unquoted ('"' :: (value ++ ['"'])) value
  | plain {raw : List Char} (bare : ∀ value, raw ≠ '"' :: (value ++ ['"'])) : Unquoted raw raw

/-- What the text of a line says. -/
inductive Line.Spells (text : List Char) : Line → Prop where
  | header {inner : List Char} (brackets : Text.trim text = '[' :: (inner ++ [']'])) :
      Spells text (.header (Text.trim inner))
  | assignment {before after value : List Char}
      (noComment : (Text.trim text).head? ≠ some '#')
      (noHeader : ∀ inner, Text.trim text ≠ '[' :: (inner ++ [']']))
      (equals : Text.trim text = before ++ '=' :: after) (first : '=' ∉ before)
      (assigned : Unquoted (Text.trim after) value) :
      Spells text (.assignment (Text.trim before) value)
  | comment (number : (Text.trim text).head? = some '#') : Spells text .other
  | rest (noHeader : ∀ inner, Text.trim text ≠ '[' :: (inner ++ [']']))
      (noEquals : '=' ∉ Text.trim text) : Spells text .other

theorem unquote_quoted (value : List Char) : unquote ('"' :: (value ++ ['"'])) = value := by
  simp [unquote]

theorem unquote_of_bare {raw : List Char} (bare : ∀ value, raw ≠ '"' :: (value ++ ['"'])) :
    unquote raw = raw := by
  unfold unquote
  split
  · next cs =>
    refine if_neg fun hlast => ?_
    obtain ⟨value, rfl⟩ := List.getLast?_eq_some_iff.mp hlast
    exact bare value rfl
  · rfl

theorem Unquoted.unquote_eq {raw value : List Char} (h : Unquoted raw value) :
    unquote raw = value := by
  cases h with
  | quoted => exact unquote_quoted value
  | plain bare => exact unquote_of_bare bare

/-- Every text stands for a value. -/
theorem unquoted_unquote (raw : List Char) : Unquoted raw (unquote raw) := by
  by_cases hquoted : ∃ value, raw = '"' :: (value ++ ['"'])
  · obtain ⟨value, rfl⟩ := hquoted
    rw [unquote_quoted]
    exact .quoted value
  · have bare : ∀ value, raw ≠ '"' :: (value ++ ['"']) := fun value h => hquoted ⟨value, h⟩
    rw [unquote_of_bare bare]
    exact .plain bare

namespace Line

variable {text : List Char} {line : Line}

theorem not_isHeader {trimmed : List Char} (h : ∀ inner, trimmed ≠ '[' :: (inner ++ [']'])) :
    ¬ isHeader trimmed = true := fun hheader =>
  let ⟨inner, hinner⟩ := isHeader_iff.mp hheader
  h inner hinner

/-- The reader parts a line at its first equals sign. -/
theorem ofTrimmed_assignment {before after : List Char}
    (noComment : (before ++ '=' :: after).head? ≠ some '#')
    (noHeader : ∀ inner, before ++ '=' :: after ≠ '[' :: (inner ++ [']'])) (first : '=' ∉ before) :
    ofTrimmed (before ++ '=' :: after) =
      .assignment (Text.trim before) (unquote (Text.trim after)) := by
  have hbefore : ∀ c ∈ before, (c != '=') = true := fun c hc => by
    rw [bne_iff_ne]
    rintro rfl
    exact first hc
  have hequals : (before ++ '=' :: after).contains '=' = true := by simp
  have htake : (before ++ '=' :: after).takeWhile (· != '=') = before := by
    rw [List.takeWhile_append_of_pos hbefore, List.takeWhile_cons_of_neg (by decide),
      List.append_nil]
  have hdrop : (before ++ '=' :: after).dropWhile (· != '=') = '=' :: after := by
    rw [List.dropWhile_append_of_pos hbefore, List.dropWhile_cons_of_neg (by decide)]
  rw [ofTrimmed, if_neg noComment, if_neg (not_isHeader noHeader), if_pos hequals, htake, hdrop,
    List.tail_cons]

/-- The reader takes a line for what it spells. -/
theorem Spells.ofChars_eq (h : Spells text line) : ofChars text = line := by
  unfold ofChars
  cases h with
  | header brackets =>
    rw [brackets, ofTrimmed, if_neg (by rw [List.head?_cons]; decide),
      if_pos (isHeader_iff.mpr ⟨_, rfl⟩), List.tail_cons, List.dropLast_concat]
  | assignment noComment noHeader equals first assigned =>
    rw [equals] at noComment noHeader ⊢
    rw [ofTrimmed_assignment noComment noHeader first, assigned.unquote_eq]
  | comment number => rw [ofTrimmed, if_pos number]
  | rest noHeader noEquals =>
    have hequals : ¬ (Text.trim text).contains '=' = true :=
      fun h => noEquals (List.contains_iff_mem.mp h)
    rw [ofTrimmed, if_neg (not_isHeader noHeader), if_neg hequals, ite_self]

/-- Every line spells something. -/
theorem exists_spells (text : List Char) : ∃ line, Spells text line := by
  -- brackets first: a text in brackets does not begin with a number sign
  by_cases hheader : ∃ inner, Text.trim text = '[' :: (inner ++ [']'])
  · exact ⟨_, .header hheader.choose_spec⟩
  · have noHeader : ∀ inner, Text.trim text ≠ '[' :: (inner ++ [']']) :=
      fun inner h => hheader ⟨inner, h⟩
    by_cases number : (Text.trim text).head? = some '#'
    · exact ⟨_, .comment number⟩
    · by_cases hequals : '=' ∈ Text.trim text
      · obtain ⟨before, after, equals, first⟩ := List.eq_append_cons_of_mem hequals
        exact ⟨_, .assignment number noHeader equals first (unquoted_unquote _)⟩
      · exact ⟨_, .rest noHeader hequals⟩

theorem spells_iff : Spells text line ↔ ofChars text = line := by
  refine ⟨Spells.ofChars_eq, ?_⟩
  rintro rfl
  obtain ⟨line, h⟩ := exists_spells text
  exact h.ofChars_eq ▸ h

end Line

theorem forall₂_spells_iff {texts : List (List Char)} {lines : List Line} :
    List.Forall₂ Line.Spells texts lines ↔ lines = texts.map Line.ofChars := by
  have hread : List.Forall₂ Line.Spells texts lines ↔
      List.Forall₂ (fun text line => Line.ofChars text = line) texts lines := by
    constructor <;> exact fun h => h.imp fun _ _ => by simp only [Line.spells_iff, imp_self]
  rw [hread, ← List.forall₂_map_left_iff, List.forall₂_eq_eq_eq, eq_comm]

/-! ## The assignments that take effect -/

/-- The line with this index assigns `value` to `key` in a section of the engine, and no later line
in such a section assigns to that key. -/
def EffectiveAt (content key : List Char) (i : Nat) (value : List Char) : Prop :=
  ∃ lines, List.Forall₂ Line.Spells (Text.lines content) lines ∧
    AssignsAt sectionName.toList key lines i value ∧
      ∀ j value', i < j → ¬ AssignsAt sectionName.toList key lines j value'

theorem effectiveAt_iff {content key value : List Char} {i : Nat} :
    EffectiveAt content key i value ↔
      AssignsAt sectionName.toList key ((Text.lines content).map Line.ofChars) i value ∧
        ∀ j value', i < j →
          ¬ AssignsAt sectionName.toList key ((Text.lines content).map Line.ofChars) j value' := by
  simp only [EffectiveAt, forall₂_spells_iff, exists_eq_left]

/-- What is looked up is what takes effect. -/
theorem lookup_eq_some_iff {content key value : List Char} :
    lookup key (assignments sectionName.toList content) = some value ↔
      ∃ i, EffectiveAt content key i value := by
  simp only [lookup_assignments_eq_iff, effectiveAt_iff]
  constructor
  · intro h
    cases h with
    | last assigns last => exact ⟨_, assigns, last⟩
  · rintro ⟨i, assigns, last⟩
    exact .last assigns last

/-! ## Lines without effect -/

variable {name key : List Char} {front rest : List Line} {line : Line}

theorem lookup_append (entries more : List (List Char × List Char)) :
    lookup key (entries ++ more) = (lookup key more).or (lookup key entries) := by
  simp only [lookup, List.reverse_append, List.find?_append, Option.map_or]

/-- An assignment behind a line that leaves the reader inside the section counts as one behind the
header of that section. -/
theorem AssignsAt.after {i : Nat} {value : List Char}
    (h : AssignsAt name key (front ++ line :: rest) (front.length + (i + 1)) value) :
    AssignsAt name key (.header name :: rest) (i + 1) value := by
  have hget : ∀ j, (front ++ line :: rest)[front.length + (j + 1)]? =
      (Line.header name :: rest)[j + 1]? := fun j => by
    rw [List.getElem?_append_right (Nat.le_add_right _ _), Nat.add_sub_cancel_left,
      List.getElem?_cons_succ, List.getElem?_cons_succ]
  obtain ⟨assigns, start, hstart, header, nearest⟩ := h
  refine ⟨hget i ▸ assigns, ?_⟩
  -- the nearest header stands behind the line, or it is the one that the line stands under
  rcases Nat.lt_or_ge front.length start with hlt | hle
  · obtain ⟨k, rfl⟩ := Nat.exists_eq_add_of_lt hlt
    refine ⟨k + 1, by omega, hget k ▸ header, fun j hj hji other => ?_⟩
    obtain ⟨j, rfl⟩ := Nat.exists_eq_add_one_of_ne_zero (by omega : j ≠ 0)
    exact hget j ▸ nearest (front.length + (j + 1)) (by omega) (by omega) other
  · refine ⟨0, Nat.succ_pos i, rfl, fun j hj hji other => ?_⟩
    obtain ⟨j, rfl⟩ := Nat.exists_eq_add_one_of_ne_zero (Nat.ne_of_gt hj)
    exact hget j ▸ nearest (front.length + (j + 1)) (by omega) (by omega) other

/-- A line that is no header and whose assignment is not the last one to the key can be left out. -/
theorem lookup_of_ineffective (hline : ∀ other, line ≠ .header other)
    (hidle : ∀ value, ¬ (AssignsAt name key (front ++ line :: rest) front.length value ∧
      ∀ j value', front.length < j → ¬ AssignsAt name key (front ++ line :: rest) j value')) :
    lookup key (assignmentsFrom name false (front ++ rest)) =
      lookup key (assignmentsFrom name false (front ++ line :: rest)) := by
  rw [assignmentsFrom_append, assignmentsFrom_append]
  cases line with
  | header other => exact absurd rfl (hline other)
  | other => rfl
  | assignment key' value =>
    cases hinside : insideAfter name false front with
    | false => rfl
    | true =>
      simp only [assignmentsFrom, if_true]
      rw [← List.singleton_append (x := (key', value)), lookup_append, lookup_append,
        lookup_append]
      cases hlater : lookup key (assignmentsFrom name true rest) with
      | some later => rfl
      | none =>
        -- nothing is assigned to the key behind the line, so that the line assigns to another one
        have hkey : key' ≠ key := by
          rintro rfl
          refine hidle value ⟨⟨by simp, ?_⟩, fun j value' hj assigns => ?_⟩
          · exact (inSection_append_iff (Nat.le_refl _) _).mpr (insideAfter_iff.mp hinside)
          · obtain ⟨i, rfl⟩ := Nat.exists_eq_add_of_lt hj
            have hnever := lastAssigned_lookup name key' (.header name :: rest)
            rw [assignmentsFrom, BEq.rfl, hlater] at hnever
            cases hnever with
            | never never => exact never _ _ assigns.after
        simp [lookup, hkey]

/-- The text of a file without the line with this index. -/
def withoutLine (content : List Char) (i : Nat) : List Char :=
  ['\n'].intercalate ((Text.lines content).eraseIdx i)

theorem assignments_withoutLine (name content : List Char) (i : Nat) :
    assignments name (withoutLine content i) =
      assignmentsFrom name false (((Text.lines content).eraseIdx i).map Line.ofChars) := by
  rw [assignments, withoutLine]
  cases hlines : (Text.lines content).eraseIdx i with
  | nil => rfl
  | cons line rest =>
    rw [Text.lines_intercalate ?_ (List.cons_ne_nil line rest)]
    intro text htext
    exact Text.newline_not_mem_lines (List.mem_of_mem_eraseIdx (hlines ▸ htext))

theorem lookup_withoutLine {content key text : List Char} {i : Nat}
    (htext : (Text.lines content)[i]? = some text)
    (hheader : ∀ name, ¬ Line.Spells text (.header name))
    (hidle : ∀ value, ¬ EffectiveAt content key i value) :
    lookup key (assignments sectionName.toList (withoutLine content i)) =
      lookup key (assignments sectionName.toList content) := by
  obtain ⟨hi, rfl⟩ := List.getElem?_eq_some_iff.mp htext
  have hsplit : Text.lines content =
      (Text.lines content).take i ++ (Text.lines content)[i] :: (Text.lines content).drop (i + 1) := by
    rw [List.getElem_cons_drop, List.take_append_drop]
  have hlength : (((Text.lines content).take i).map Line.ofChars).length = i := by
    rw [List.length_map, List.length_take_of_le (Nat.le_of_lt hi)]
  have hlines : (Text.lines content).map Line.ofChars =
      ((Text.lines content).take i).map Line.ofChars ++ Line.ofChars (Text.lines content)[i] ::
        ((Text.lines content).drop (i + 1)).map Line.ofChars := by
    rw [← List.map_cons, ← List.map_append, ← hsplit]
  -- on both sides the same lines in front and behind, and on one of them the line between
  rw [assignments_withoutLine, assignments, hlines, List.eraseIdx_eq_take_drop_succ,
    List.map_append]
  refine lookup_of_ineffective (fun name h => hheader name (Line.spells_iff.mpr h)) fun value h => ?_
  rw [hlength, ← hlines] at h
  exact hidle value (effectiveAt_iff.mpr h)

/-! ## The whole effect -/

/-- An entry that is not valid is warned about. -/
theorem applyMemorySize_snd (s : Settings) (entry : Option (List Char)) :
    (s.applyMemorySize entry).2 =
      ((entry.filter fun v => (memorySize? v).isNone).map (warning "memory_size")).toList := by
  cases entry with
  | none => rfl
  | some value => cases hvalue : memorySize? value <;> simp [applyMemorySize, Option.filter, hvalue]

theorem applyTimeout_snd (s : Settings) (entry : Option (List Char)) :
    (s.applyTimeout entry).2 =
      ((entry.filter fun v => (Decimal.word? v).isNone).map (warning "timeout_ms")).toList := by
  cases entry with
  | none => rfl
  | some value => cases hvalue : Decimal.word? value <;> simp [applyTimeout, Option.filter, hvalue]

/-- A file does exactly what its assignments that take effect say. No text breaks the reader off.
There is at most one such assignment to each of the two keys; a setting changes if there is one to
its key with a valid value, to the number that this value stands for, and there is a warning if there
is one with a value that is not valid, first about the number of cells, then about the timeout. A line
that is no header and has no such assignment to either key changes neither the settings nor the
warnings by being there. -/
theorem file_does_what_it_assigns (s : Settings) (content : List Char) :
    s.applyFileChecked content = .ok (s.applyFile content) ∧
    (∃ memory timeout : Option (List Char),
      (∀ value, memory = some value ↔ ∃ i, EffectiveAt content "memory_size".toList i value) ∧
      (∀ value, timeout = some value ↔ ∃ i, EffectiveAt content "timeout_ms".toList i value) ∧
      (s.applyFile content).1 =
        ⟨(memory.bind memorySize?).getD s.memorySize,
          (timeout.bind Decimal.word?).or s.timeoutMs⟩ ∧
      (s.applyFile content).2 =
        ((memory.filter fun v => (memorySize? v).isNone).map (warning "memory_size")).toList ++
        ((timeout.filter fun v => (Decimal.word? v).isNone).map (warning "timeout_ms")).toList) ∧
    ∀ i text, (Text.lines content)[i]? = some text → (∀ name, ¬ Line.Spells text (.header name)) →
      (∀ value, ¬ EffectiveAt content "memory_size".toList i value) →
      (∀ value, ¬ EffectiveAt content "timeout_ms".toList i value) →
      s.applyFile (withoutLine content i) = s.applyFile content := by
  refine ⟨applyFileChecked_eq s content, ⟨_, _, fun value => lookup_eq_some_iff,
    fun value => lookup_eq_some_iff, ?_, ?_⟩, ?_⟩
  · simp only [applyFile, applyMemorySize_fst, applyTimeout_fst]
  · simp only [applyFile, applyMemorySize_snd, applyTimeout_snd]
  · intro i text htext hheader hmemory htimeout
    simp only [applyFile, lookup_withoutLine htext hheader hmemory,
      lookup_withoutLine htext hheader htimeout]

/-- A file with two sections of the engine. The number of cells has one quote in the first of them and
is overridden in the second, where the timeout is no number. -/
theorem file_does_what_it_assigns_of_two_sections :
    let content := ("[engine]\nmemory_size=\"8\n[]\nmemory_size=9\n" ++
      "[ engine ]\nmemory_size=\"1_6\"\ntimeout_ms=a=b").toList
    default.applyFileChecked content = .ok (⟨16, none⟩, [warning "timeout_ms" "a=b".toList]) ∧
      (∃ i, EffectiveAt content "memory_size".toList i "1_6".toList) ∧
      default.applyFile (withoutLine content 1) = default.applyFile content := by
  intro content
  obtain ⟨hchecked, -, hidle⟩ := file_does_what_it_assigns default content
  have happly : default.applyFile content = (⟨16, none⟩, [warning "timeout_ms" "a=b".toList]) := by
    decide +kernel
  have hmemory : lookup "memory_size".toList (assignments sectionName.toList content) =
      some "1_6".toList := by
    decide +kernel
  have htimeout : lookup "timeout_ms".toList (assignments sectionName.toList content) =
      some "a=b".toList := by
    decide +kernel
  have hread : Line.ofChars "memory_size=\"8".toList =
      .assignment "memory_size".toList "\"8".toList := by
    decide +kernel
  have hline : ((Text.lines content).map Line.ofChars)[1]? =
      some (.assignment "memory_size".toList "\"8".toList) := by
    decide +kernel
  refine ⟨hchecked.trans (congrArg _ happly), lookup_eq_some_iff.mp hmemory, ?_⟩
  refine hidle 1 "memory_size=\"8".toList (by decide +kernel) (fun name h => ?_) (fun value h => ?_)
    (fun value h => ?_)
  · cases hread.symm.trans h.ofChars_eq
  · have hvalue := hmemory.symm.trans (lookup_eq_some_iff.mpr ⟨1, h⟩)
    cases hline.symm.trans (effectiveAt_iff.mp h).1.1
    revert hvalue
    decide +kernel
  · cases hline.symm.trans (effectiveAt_iff.mp h).1.1

end Settings

end Brainfuck
