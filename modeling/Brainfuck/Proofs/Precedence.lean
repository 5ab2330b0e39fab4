import Brainfuck.Proofs.Opening
import Brainfuck.Proofs.Safety
import Mathlib.Data.List.Induction

/-!
# Which setting counts

A setting can come from an option, from the environment, from the settings file or from the defaults,
and the first of these that has a valid one decides. In the file it is the last assignment to the key
in a section of the right name that counts, valid or not. `LastAssigned` says which one that is by
the places of the lines: a line is in the section of the nearest header before it. The reader goes
through the lines once and keeps only whether it is inside such a section (`insideAfter`); appending
one line changes that, and the last assignment, exactly as the places do, so the two agree by
induction on the lines from the front to the back (`lookup_assignments_eq_iff`).

Of all levels only the option can set the number of cells to zero, so an engine is refused for lack of
cells only when the option asks for that (`settings_by_precedence`).
-/

namespace Brainfuck

namespace Settings

variable {name key value : List Char} {lines : List Line} {line : Line} {i : Nat}

/-! ## The last assignment of a file -/

/-- The line with this index is in a section called `name`: the nearest header before it has that
name. -/
def InSection (name : List Char) (lines : List Line) (i : Nat) : Prop :=
  ∃ start < i, lines[start]? = some (.header name) ∧
    ∀ j, start < j → j < i → ∀ other, lines[j]? ≠ some (.header other)

/-- The line with this index assigns `value` to `key` in a section called `name`. -/
def AssignsAt (name key : List Char) (lines : List Line) (i : Nat) (value : List Char) : Prop :=
  lines[i]? = some (.assignment key value) ∧ InSection name lines i

/-- What the lines assign to `key` in the sections called `name` for the last time, if they ever do. -/
inductive LastAssigned (name key : List Char) (lines : List Line) : Option (List Char) → Prop where
  | never (never : ∀ i value, ¬ AssignsAt name key lines i value) : LastAssigned name key lines none
  | last {i : Nat} {value : List Char} (assigns : AssignsAt name key lines i value)
      (last : ∀ j value', i < j → ¬ AssignsAt name key lines j value') :
      LastAssigned name key lines (some value)

theorem LastAssigned.unique {entry entry' : Option (List Char)}
    (h : LastAssigned name key lines entry) (h' : LastAssigned name key lines entry') :
    entry = entry' := by
  cases h with
  | never never =>
    cases h' with
    | never => rfl
    | last assigns => exact absurd assigns (never _ _)
  | @last i value assigns last =>
    cases h' with
    | never never => exact absurd assigns (never _ _)
    | @last i' value' assigns' last' =>
      -- neither of two last assignments is behind the other
      obtain rfl : i = i' :=
        Nat.le_antisymm (Nat.le_of_not_lt fun hlt => last' _ _ hlt assigns)
          (Nat.le_of_not_lt fun hlt => last _ _ hlt assigns')
      cases assigns.1.symm.trans assigns'.1
      rfl

/-- Whether a line is in a section depends only on what stands before it. -/
theorem InSection.congr {lines' : List Line} (h : InSection name lines i)
    (hsame : ∀ j < i, lines'[j]? = lines[j]?) : InSection name lines' i := by
  obtain ⟨start, hstart, header, nearest⟩ := h
  refine ⟨start, hstart, (hsame start hstart).trans header, fun j hj hji other => ?_⟩
  rw [hsame j hji]
  exact nearest j hj hji other

theorem inSection_append_iff (hi : i ≤ lines.length) (more : List Line) :
    InSection name (lines ++ more) i ↔ InSection name lines i := by
  have hget : ∀ j < i, (lines ++ more)[j]? = lines[j]? := fun j hj =>
    List.getElem?_append_left (Nat.lt_of_lt_of_le hj hi)
  exact ⟨fun h => h.congr fun j hj => (hget j hj).symm, fun h => h.congr hget⟩

/-- A header decides for the line behind it; any other line leaves it in the section where it is. -/
theorem inSection_succ_iff : InSection name lines (i + 1) ↔
    lines[i]? = some (.header name) ∨
      InSection name lines i ∧ ∀ other, lines[i]? ≠ some (.header other) := by
  constructor
  · rintro ⟨start, hstart, header, nearest⟩
    rcases Nat.lt_succ_iff_lt_or_eq.mp hstart with hlt | rfl
    · exact .inr ⟨⟨start, hlt, header, fun j hj hji => nearest j hj (Nat.lt_succ_of_lt hji)⟩,
        nearest i hlt (Nat.lt_succ_self i)⟩
    · exact .inl header
  · rintro (header | ⟨⟨start, hstart, header, nearest⟩, hlast⟩)
    · exact ⟨i, Nat.lt_succ_self i, header, fun j hj hji => by omega⟩
    · refine ⟨start, Nat.lt_succ_of_lt hstart, header, fun j hj hji => ?_⟩
      rcases Nat.lt_succ_iff_lt_or_eq.mp hji with hlt | rfl
      · exact nearest j hj hlt
      · exact hlast

/-- After these lines the reader is inside a section called `name`. -/
def insideAfter (name : List Char) (inside : Bool) (lines : List Line) : Bool :=
  lines.foldl (fun inside line => match line with
    | .header other => other == name
    | _ => inside) inside

/-- A header decides where the reader is, any other line leaves it where it is. -/
theorem insideAfter_concat (name : List Char) (inside : Bool) (lines : List Line) (line : Line) :
    insideAfter name inside (lines ++ [line]) =
      match line with
      | .header other => other == name
      | _ => insideAfter name inside lines := by
  rw [insideAfter, List.foldl_append]
  rfl

theorem assignmentsFrom_append (name : List Char) (inside : Bool) (lines more : List Line) :
    assignmentsFrom name inside (lines ++ more) = assignmentsFrom name inside lines ++
      assignmentsFrom name (insideAfter name inside lines) more := by
  induction lines generalizing inside with
  | nil => rfl
  | cons line lines ih =>
    cases line with
    | header other => exact ih (other == name)
    | assignment key value =>
      cases inside with
      | true => exact congrArg ((key, value) :: ·) (ih true)
      | false => exact ih false
    | other => exact ih inside

theorem insideAfter_iff :
    insideAfter name false lines = true ↔ InSection name lines lines.length := by
  induction lines using List.reverseRecOn with
  | nil => simp [insideAfter, InSection]
  | append_singleton lines line ih =>
    have hlast : (lines ++ [line])[lines.length]? = some line := by simp
    rw [List.length_append, List.length_singleton, inSection_succ_iff, hlast,
      inSection_append_iff (Nat.le_refl _), ← ih]
    unfold insideAfter
    cases line <;> simp

theorem lookup_append_singleton (entries : List (List Char × List Char)) (key' value : List Char) :
    lookup key (entries ++ [(key', value)]) =
      if key' = key then some value else lookup key entries := by
  by_cases hkey : key' = key <;> simp [lookup, hkey]

theorem assignsAt_append_iff (hi : i < lines.length) (more : List Line) :
    AssignsAt name key (lines ++ more) i value ↔ AssignsAt name key lines i value := by
  rw [AssignsAt, AssignsAt, List.getElem?_append_left hi,
    inSection_append_iff (Nat.le_of_lt hi)]

theorem AssignsAt.lt (h : AssignsAt name key lines i value) : i < lines.length :=
  (List.getElem?_eq_some_iff.mp h.1).1

/-- An assignment at the end of the lines is the last one. -/
theorem lastAssigned_append_assignment (h : InSection name lines lines.length) (value : List Char) :
    LastAssigned name key (lines ++ [.assignment key value]) (some value) := by
  refine .last (i := lines.length) ⟨by simp, (inSection_append_iff (Nat.le_refl _) _).mpr h⟩ ?_
  intro j value' hj assigns
  have hlt := assigns.lt
  rw [List.length_append, List.length_singleton] at hlt
  omega

/-- A line at the end that assigns nothing to the key does not change what was assigned last. -/
theorem LastAssigned.append {entry : Option (List Char)} (h : LastAssigned name key lines entry)
    (hline : ∀ value, ¬ AssignsAt name key (lines ++ [line]) lines.length value) :
    LastAssigned name key (lines ++ [line]) entry := by
  have hearlier : ∀ {j value}, AssignsAt name key (lines ++ [line]) j value →
      AssignsAt name key lines j value := by
    intro j value assigns
    have hlt := assigns.lt
    rw [List.length_append, List.length_singleton] at hlt
    rcases Nat.lt_succ_iff_lt_or_eq.mp hlt with hj | rfl
    · exact (assignsAt_append_iff hj _).mp assigns
    · exact absurd assigns (hline value)
  cases h with
  | never never => exact .never fun j value assigns => never j value (hearlier assigns)
  | last assigns last =>
    exact .last ((assignsAt_append_iff assigns.lt _).mpr assigns) fun j value' hj assigns' =>
      last j value' hj (hearlier assigns')

theorem lastAssigned_lookup (name key : List Char) (lines : List Line) :
    LastAssigned name key lines (lookup key (assignmentsFrom name false lines)) := by
  induction lines using List.reverseRecOn with
  | nil => exact .never fun i value assigns => by simp [AssignsAt] at assigns
  | append_singleton lines line ih =>
    have hlast : (lines ++ [line])[lines.length]? = some line := by simp
    rw [assignmentsFrom_append]
    cases line with
    | header other | other =>
      simp only [assignmentsFrom, List.append_nil]
      exact ih.append fun value assigns => by simp [AssignsAt] at assigns
    | assignment key' value =>
      by_cases hinside : insideAfter name false lines = true
      · simp only [assignmentsFrom, hinside, if_true, lookup_append_singleton]
        split
        · next hkey =>
          subst hkey
          exact lastAssigned_append_assignment (insideAfter_iff.mp hinside) value
        · next hkey => exact ih.append fun value' assigns => by simp [AssignsAt, hkey] at assigns
      · -- outside the section the line is of the right form, but assigns nothing
        simp only [assignmentsFrom, hinside, Bool.false_eq_true, if_false, List.append_nil]
        refine ih.append fun value' assigns => hinside (insideAfter_iff.mpr ?_)
        exact (inSection_append_iff (Nat.le_refl _) _).mp assigns.2

/-- What is looked up is what was assigned last. -/
theorem lookup_assignments_eq_iff {content : List Char} {entry : Option (List Char)} :
    lookup key (assignments name content) = entry ↔
      LastAssigned name key ((Text.lines content).map Line.ofChars) entry :=
  ⟨fun h => h ▸ lastAssigned_lookup name key _, (lastAssigned_lookup name key _).unique⟩

example : lookup "timeout_ms".toList (assignments "engine".toList
    "[engine]\ntimeout_ms = 5\n[ engine ]\ntimeout_ms=soon\n[other]\ntimeout_ms = 7".toList) =
    some "soon".toList := by
  decide

/-! ## The loaded settings -/

/-- The lines of a settings file. One that is missing or cannot be read, or whose bytes are no text,
has those of the empty text. -/
def linesOf (file : Option ByteArray) : List Line :=
  (Text.lines ((file.bind String.fromUTF8?).getD "").toList).map Line.ofChars

theorem pos_of_memorySize? {n : Nat} (h : memorySize? value = some n) : 0 < n := by
  unfold memorySize? at h
  split at h
  · split at h
    · next hpos => cases h; exact hpos
    · cases h
  · cases h

/-- An entry of the file takes the place of the number of cells if it is valid. -/
theorem applyMemorySize_fst (s : Settings) (entry : Option (List Char)) :
    (s.applyMemorySize entry).1 =
      { s with memorySize := (entry.bind memorySize?).getD s.memorySize } := by
  cases entry with
  | none => rfl
  | some value => cases hvalue : memorySize? value <;> simp [applyMemorySize, hvalue]

/-- An entry of the file takes the place of the timeout if it is valid. -/
theorem applyTimeout_fst (s : Settings) (entry : Option (List Char)) :
    (s.applyTimeout entry).1 = { s with timeoutMs := (entry.bind Decimal.word?).or s.timeoutMs } := by
  cases entry with
  | none => rfl
  | some value => cases hvalue : Decimal.word? value <;> simp [applyTimeout, hvalue]

/-- A file that counts as empty changes nothing, so that it need not be told apart from one that
cannot be read. -/
theorem load_fst (file : Option ByteArray) (getVar : String → Option String) :
    (load file getVar).1 =
      (default.applyFile ((file.bind String.fromUTF8?).getD "").toList).1.applyEnvironment getVar := by
  unfold load
  cases file.bind String.fromUTF8? <;> rfl

/-- The loaded settings: what the environment says decides, then the last entry in the file, then the
default. -/
theorem load_by_precedence (file : Option ByteArray) (getVar : String → Option String) :
    (∃ entry, LastAssigned sectionName.toList "memory_size".toList (linesOf file) entry ∧
      (load file getVar).1.memorySize =
        (((getVar "JBF_MEMORY_SIZE").bind fun v => memorySize? v.toList).or
          (entry.bind memorySize?)).getD defaultMemorySize) ∧
    ∃ entry, LastAssigned sectionName.toList "timeout_ms".toList (linesOf file) entry ∧
      (load file getVar).1.timeoutMs =
        ((getVar "JBF_TIMEOUT_MS").bind fun v => Decimal.word? (Text.trim v.toList)).or
          (entry.bind Decimal.word?) := by
  rw [load_fst]
  constructor
  · refine ⟨_, lookup_assignments_eq_iff.mp rfl, ?_⟩
    simp only [applyEnvironment, applyFile, applyMemorySize_fst, applyTimeout_fst, default,
      Option.getD_or]
  · refine ⟨_, lookup_assignments_eq_iff.mp rfl, ?_⟩
    simp only [applyEnvironment, applyFile, applyMemorySize_fst, applyTimeout_fst, default,
      Option.or_none]

end Settings

namespace CommandLine

open Settings

/-- The settings of a run: an option decides, and without one the loaded settings. -/
theorem resolveSettings_by_precedence (request : RunRequest) (path : Option String)
    (file : Option ByteArray) (getVar : String → Option String) :
    (∃ entry, LastAssigned "engine".toList "memory_size".toList (linesOf file) entry ∧
      (resolveSettings request path file getVar).1.memorySize =
        ((request.memory.or ((getVar "JBF_MEMORY_SIZE").bind fun v => memorySize? v.toList)).or
          (entry.bind memorySize?)).getD 30000) ∧
    ∃ entry, LastAssigned "engine".toList "timeout_ms".toList (linesOf file) entry ∧
      (resolveSettings request path file getVar).1.timeoutMs =
        (request.timeout.or ((getVar "JBF_TIMEOUT_MS").bind fun v =>
          Decimal.word? (Text.trim v.toList))).or (entry.bind Decimal.word?) := by
  obtain ⟨⟨entry, assigned, hmemory⟩, entry', assigned', htimeout⟩ := load_by_precedence file getVar
  refine ⟨⟨entry, assigned, ?_⟩, entry', assigned', ?_⟩
  · rw [Option.or_assoc, Option.getD_or]
    exact congrArg request.memory.getD hmemory
  · rw [Option.or_assoc]
    exact congrArg request.timeout.or htimeout

/-- A valid number of cells is not zero, and neither is the default. -/
theorem load_memorySize_ne_zero (file : Option ByteArray) (getVar : String → Option String) :
    (load file getVar).1.memorySize ≠ 0 := by
  obtain ⟨⟨entry, -, hmemory⟩, -⟩ := load_by_precedence file getVar
  rw [hmemory]
  generalize hlevels : ((getVar "JBF_MEMORY_SIZE").bind fun v => memorySize? v.toList).or
    (entry.bind memorySize?) = levels
  cases levels with
  | none => decide
  | some n =>
    rcases Option.or_eq_some_iff.mp hlevels with hvariable | ⟨-, hentry⟩
    · obtain ⟨v, -, hvalid⟩ := Option.bind_eq_some_iff.mp hvariable
      exact Nat.ne_of_gt (pos_of_memorySize? hvalid)
    · obtain ⟨v, -, hvalid⟩ := Option.bind_eq_some_iff.mp hentry
      exact Nat.ne_of_gt (pos_of_memorySize? hvalid)

/-- A run has no cells only if the option says so. -/
theorem resolveSettings_memorySize_eq_zero_iff (request : RunRequest) (path : Option String)
    (file : Option ByteArray) (getVar : String → Option String) :
    (resolveSettings request path file getVar).1.memorySize = 0 ↔ request.memory = some 0 := by
  show request.memory.getD (load file getVar).1.memorySize = 0 ↔ request.memory = some 0
  cases request.memory with
  | none => simp [load_memorySize_ne_zero]
  | some n => simp

/-- A run that has taken its engine never comes to the fault of an engine without cells. -/
theorem Process.Started.result_ne_noCells {p : Process} (h : p.Started) (moves : List Move)
    (size : Nat) : (p.run moves).1.system.result? 0 ≠ some (.failed (.noCells size)) := by
  intro hr
  obtain ⟨fresh, hfresh, hsystem⟩ := h.system
  rw [Process.system_run, hsystem, ← System.after_append] at hr
  obtain ⟨c, hc, -⟩ := Option.bind_eq_some_iff.mp hr
  cases System.comesTo_of_result hfresh hc hr with
  | fails fails => cases fails

/-- The settings of a run are resolved key by key, for all arguments of `run`, every settings file and
every environment. The number of cells is the value of the option, without one the valid value of
`JBF_MEMORY_SIZE`, without one the value that the file assigns last in its sections `engine` if it is
valid, and otherwise 30000. In the same way the timeout is the value of the option, of
`JBF_TIMEOUT_MS` or of the file, or there is none. What one level says of the one key has no part in
the other, and a value that is not valid is as good as none.

The number of cells is zero only if the option says so: an engine with the loaded settings can always
be had, and the run takes an engine with this many cells, or is over at once for the option. -/
theorem settings_by_precedence (request : RunRequest) (path : Option String)
    (file : Option ByteArray) (getVar : String → Option String) :
    let settings := (resolveSettings request path file getVar).1
    (∃ entry, LastAssigned "engine".toList "memory_size".toList (linesOf file) entry ∧
      settings.memorySize =
        ((request.memory.or ((getVar "JBF_MEMORY_SIZE").bind fun v => memorySize? v.toList)).or
          (entry.bind memorySize?)).getD 30000) ∧
    (∃ entry, LastAssigned "engine".toList "timeout_ms".toList (linesOf file) entry ∧
      settings.timeoutMs =
        (request.timeout.or ((getVar "JBF_TIMEOUT_MS").bind fun v =>
          Decimal.word? (Text.trim v.toList))).or (entry.bind Decimal.word?)) ∧
    (settings.memorySize = 0 ↔ request.memory = some 0) ∧
    (∃ system, System.new (load file getVar).1.memorySize = .ok system) ∧
    ∀ name terminal source,
      match Opening.ofSource name terminal source request path file getVar with
      | .over _ _ => request.memory = some 0
      | .running p _ =>
        request.memory ≠ some 0 ∧ p.settings = settings ∧
          p.system.engine.memory = settings.memorySize ∧
          ∀ moves size, (p.run moves).1.system.result? 0 ≠ some (.failed (.noCells size)) := by
  intro settings
  have hzero := resolveSettings_memorySize_eq_zero_iff request path file getVar
  obtain ⟨hmemory, htimeout⟩ := resolveSettings_by_precedence request path file getVar
  refine ⟨hmemory, htimeout, hzero, ?_, fun name terminal source => ?_⟩
  · refine ⟨⟨⟨(load file getVar).1.memorySize, .empty, false, false⟩, #[]⟩, ?_⟩
    rw [System.new, Engine.new, if_neg (load_memorySize_ne_zero file getVar)]
  · rcases Opening.ofSource_cases name terminal source request path file getVar with
      ⟨hnone, written, hover, -⟩ | ⟨hsome, p, said, hrunning, -, -, hsettings, started⟩
    · rw [hover]
      exact hzero.mp hnone
    · rw [hrunning]
      obtain ⟨fresh, hfresh, hsystem⟩ := started.system
      refine ⟨fun h => hsome (hzero.mpr h), hsettings, ?_, started.result_ne_noCells⟩
      rw [hsystem, System.memory_after, (System.new_eq_ok hfresh).2, hsettings]

end CommandLine

end Brainfuck
