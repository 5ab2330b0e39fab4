import Brainfuck.Proofs.Effective
import Brainfuck.Proofs.Isolation
import Mathlib.Algebra.Group.Nat.Defs

/-!
# Numbers in the settings

A number is read exactly or not at all. `Decimal.IsNumeral` says which texts are numerals and what
they stand for, by the digits alone; the reader goes through the digits once, and takes a text for a
number if and only if it is a numeral of a number below 2 ^ 64 (`Decimal.word?_eq_some_iff`). Zeros in
front change no value, so that every number has, apart from them, one sequence of digits
(`Decimal.isDigits_iff_exists_zeros`), and what is printed can be read.

A settings file wraps a numeral in blanks and quotes (`Spelling`), the environment in blanks only. In
both the wrapping comes off again, so that it depends only on the number whether and how a setting
changes (`numbers_are_read_exactly`).
-/

namespace Brainfuck

/-! ## Digits -/

namespace Decimal

variable {cs : List Char} {n : Nat}

/-- The text is one or more digits, and they stand for `n`. -/
def IsDigits (cs : List Char) (n : Nat) : Prop :=
  cs ≠ [] ∧ (∀ c ∈ cs, c.isDigit = true) ∧ Nat.ofDigitChars 10 cs 0 = n

instance (cs : List Char) (n : Nat) : Decidable (IsDigits cs n) :=
  decidable_of_iff (cs ≠ [] ∧ cs.all Char.isDigit = true ∧ Nat.ofDigitChars 10 cs 0 = n)
    (by rw [List.all_eq_true, IsDigits])

/-- The text is a numeral of `n`: digits, perhaps behind a plus sign. -/
def IsNumeral (cs : List Char) (n : Nat) : Prop :=
  ∃ digits, (cs = digits ∨ cs = '+' :: digits) ∧ IsDigits digits n

theorem digit?_eq (c : Char) :
    digit? c = if c.isDigit then some (c.toNat - '0'.toNat) else none := by
  have hdigit : ('0' ≤ c ∧ c ≤ '9') ↔ c.isDigit = true := by
    simp [Char.isDigit, Char.le_def]
  simp only [digit?, hdigit]

/-- The reader goes through the digits from the left, and stops at a character that is none. -/
theorem valueFrom?_eq (n : Nat) (cs : List Char) :
    valueFrom? n cs = if cs.all Char.isDigit then some (Nat.ofDigitChars 10 cs n) else none := by
  induction cs generalizing n with
  | nil => rfl
  | cons c cs ih =>
    rw [valueFrom?, digit?_eq, Nat.ofDigitChars_cons, List.all_cons]
    cases hc : c.isDigit with
    | true => simpa using ih (10 * n + (c.toNat - '0'.toNat))
    | false => simp

theorem value?_eq_some_iff : value? cs = some n ↔ IsDigits cs n := by
  cases cs with
  | nil => simp [value?, IsDigits]
  | cons c cs =>
    rw [value?, valueFrom?_eq, IsDigits]
    simp only [ite_eq_iff, Option.some.injEq, reduceCtorEq, and_false, or_false, ne_eq,
      not_false_eq_true, true_and, List.all_eq_true]

/-- A plus sign is no digit, so that a numeral has one at most. -/
theorem value?_unsigned_eq_some_iff : value? (unsigned cs) = some n ↔ IsNumeral cs n := by
  rw [value?_eq_some_iff]
  constructor
  · intro h
    unfold unsigned at h
    split at h
    · next digits => exact ⟨digits, .inr rfl, h⟩
    · exact ⟨_, .inl rfl, h⟩
  · rintro ⟨digits, rfl | rfl, h⟩
    · have hsign : unsigned cs = cs := unsigned.eq_2 cs fun rest hrest => by
        have hplus := h.2.1 '+' (hrest ▸ List.mem_cons_self)
        cases hplus
      exact hsign.symm ▸ h
    · exact h

/-- A number is read off the numerals of that number, if it is a word, and off no other text. -/
theorem word?_eq_some_iff : word? cs = some n ↔ IsNumeral cs n ∧ n < 2 ^ 64 := by
  rw [← value?_unsigned_eq_some_iff]
  unfold word?
  cases value? (unsigned cs) with
  | none => simp
  | some m =>
    have hsize : UInt64.size = 2 ^ 64 := rfl
    simp only [Option.some.injEq, ite_eq_iff, reduceCtorEq, and_false, or_false, hsize]
    constructor
    · rintro ⟨hlt, rfl⟩
      exact ⟨rfl, hlt⟩
    · rintro ⟨rfl, hlt⟩
      exact ⟨hlt, rfl⟩

/-- Digits are read as the number that they stand for, if it is a word. -/
theorem word?_of_isDigits (h : IsDigits cs n) : word? cs = if n < 2 ^ 64 then some n else none := by
  have hnumeral : IsNumeral cs n := ⟨cs, .inl rfl, h⟩
  split
  · next hlt => exact word?_eq_some_iff.mpr ⟨hnumeral, hlt⟩
  · next hge =>
    refine Option.eq_none_iff_forall_ne_some.mpr fun m hm => ?_
    obtain ⟨hnumeral', hlt⟩ := word?_eq_some_iff.mp hm
    have hsame := (value?_unsigned_eq_some_iff.mpr hnumeral).symm.trans
      (value?_unsigned_eq_some_iff.mpr hnumeral')
    exact hge (Option.some.inj hsame ▸ hlt)

/-- One more digit behind the others. -/
theorem isDigits_concat_iff {front : List Char} {c : Char} (hfront : front ≠ []) :
    IsDigits (front ++ [c]) n ↔
      ∃ m, IsDigits front m ∧ c.isDigit = true ∧ n = 10 * m + (c.toNat - '0'.toNat) := by
  simp only [IsDigits, Nat.ofDigitChars_append, Nat.ofDigitChars_cons, Nat.ofDigitChars_nil]
  constructor
  · rintro ⟨-, hall, rfl⟩
    exact ⟨_, ⟨hfront, fun d hd => hall d (List.mem_append_left _ hd), rfl⟩,
      hall c (by simp), rfl⟩
  · rintro ⟨_, ⟨-, hall, rfl⟩, hc, rfl⟩
    refine ⟨by simp, fun d hd => ?_, rfl⟩
    rcases List.mem_append.mp hd with hd | hd
    · exact hall d hd
    · exact List.mem_singleton.mp hd ▸ hc

/-- A digit is the one that its value is printed as. -/
theorem eq_digitChar {c : Char} (hc : c.isDigit = true) :
    c.toNat - '0'.toNat < 10 ∧ Nat.toDigits 10 (c.toNat - '0'.toNat) = [c] := by
  have hbounds : 48 ≤ c.toNat ∧ c.toNat ≤ 57 := by
    rw [Char.isDigit, Bool.and_eq_true, decide_eq_true_eq, decide_eq_true_eq] at hc
    exact ⟨UInt32.le_iff_toNat_le.mp hc.1, UInt32.le_iff_toNat_le.mp hc.2⟩
  have hlt : c.toNat - '0'.toNat < 10 := by
    have hzero : '0'.toNat = 48 := rfl
    omega
  refine ⟨hlt, ?_⟩
  rw [Nat.toDigits_of_lt_base hlt, List.cons.injEq]
  refine ⟨?_, rfl⟩
  apply Char.toNat_inj.mp
  rw [Nat.toNat_digitChar_of_lt_ten hlt]
  have hzero : '0'.toNat = 48 := rfl
  omega

/-- The sequences of digits that stand for a number are those of its digits and of zeros in front of
them. -/
theorem isDigits_iff_exists_zeros :
    IsDigits cs n ↔ ∃ zeros, cs = List.replicate zeros '0' ++ Nat.toDigits 10 n := by
  constructor
  · intro h
    induction cs using List.reverseRecOn generalizing n with
    | nil => exact absurd rfl h.1
    | append_singleton front c ih =>
      by_cases hfront : front = []
      · subst hfront
        obtain ⟨-, hall, hvalue⟩ := h
        have hc := eq_digitChar (hall c (by simp))
        rw [List.nil_append, Nat.ofDigitChars_cons, Nat.ofDigitChars_nil, Nat.mul_zero,
          Nat.zero_add] at hvalue
        exact ⟨0, by rw [← hvalue, hc.2]; rfl⟩
      · obtain ⟨m, hm, hc, rfl⟩ := (isDigits_concat_iff hfront).mp h
        obtain ⟨zeros, rfl⟩ := ih hm
        obtain ⟨hlt, hdigit⟩ := eq_digitChar hc
        rcases Nat.eq_zero_or_pos m with rfl | hpos
        · -- the digit of a zero becomes one of the zeros in front
          refine ⟨zeros + 1, ?_⟩
          rw [Nat.mul_zero, Nat.zero_add, hdigit, Nat.toDigits_zero, List.replicate_succ']
        · refine ⟨zeros, ?_⟩
          rw [← Nat.toDigits_append_toDigits (by decide) hpos hlt, hdigit, List.append_assoc]
  · rintro ⟨zeros, rfl⟩
    refine ⟨by simp [Nat.toDigits_ne_nil], fun c hc => ?_, ?_⟩
    · rcases List.mem_append.mp hc with hc | hc
      · obtain rfl := List.eq_of_mem_replicate hc
        decide
      · exact Nat.isDigit_of_mem_toDigits (by decide) (by decide) hc
    · rw [Nat.ofDigitChars_append, Nat.ofDigitChars_replicate_zero, Nat.mul_zero,
        Nat.ofDigitChars_toDigits (by decide) (by decide)]

end Decimal

namespace Settings

variable {n : Nat}

/-! ## The two settings -/

/-- A number of cells is read off the numerals of that number, underscores left out, if it is a word
and not zero, and off no other text. -/
theorem memorySize?_eq_some_iff {v : List Char} : memorySize? v = some n ↔
    Decimal.IsNumeral ((Text.trim v).filter (· != '_')) n ∧ 1 ≤ n ∧ n ≤ 2 ^ 64 - 1 := by
  unfold memorySize?
  cases hword : Decimal.word? ((Text.trim v).filter (· != '_')) with
  | none =>
    simp only [reduceCtorEq, false_iff]
    rintro ⟨hnumeral, -, hle⟩
    rw [Decimal.word?_eq_some_iff.mpr ⟨hnumeral, by omega⟩] at hword
    cases hword
  | some m =>
    simp only [ite_eq_iff, Option.some.injEq, reduceCtorEq, and_false, or_false]
    constructor
    · rintro ⟨hpos, rfl⟩
      obtain ⟨hnumeral, hlt⟩ := Decimal.word?_eq_some_iff.mp hword
      exact ⟨hnumeral, hpos, by omega⟩
    · rintro ⟨hnumeral, hpos, hle⟩
      rw [Decimal.word?_eq_some_iff.mpr ⟨hnumeral, by omega⟩] at hword
      cases hword
      exact ⟨hpos, rfl⟩

/-- The text has no blanks in it and none of the signs that a line is read by. -/
def Plain (cs : List Char) : Prop :=
  cs ≠ [] ∧ ∀ c ∈ cs, Text.isBlank c = false ∧ c ∉ ['[', '#', '=', '"']

instance (cs : List Char) : Decidable (Plain cs) :=
  decidable_of_iff
    (cs ≠ [] ∧ cs.all (fun c => !(Text.isBlank c || ['[', '#', '=', '"'].contains c)) = true)
    (by simp [Plain])

/-- Digits are plain, and so are underscores among them. -/
theorem plain_of_isDigits {numeral : List Char}
    (h : Decimal.IsDigits (numeral.filter (· != '_')) n) : Plain numeral := by
  refine ⟨fun hnil => h.1 (by rw [hnil, List.filter_nil]), fun c hc => ?_⟩
  by_cases hunderscore : c = '_'
  · subst hunderscore
    decide
  · have hdigit := h.2.1 c (List.mem_filter.mpr ⟨hc, bne_iff_ne.mpr hunderscore⟩)
    -- neither a blank nor one of the signs is a digit
    have hnone : ∀ {signs : List Char}, signs.all (fun b => !b.isDigit) = true → c ∉ signs :=
      fun hsigns hmem => by simpa [hdigit] using List.all_eq_true.mp hsigns c hmem
    refine ⟨?_, hnone (by decide)⟩
    rw [← Bool.not_eq_true, Text.isBlank, List.contains_iff_mem]
    exact hnone (by decide)

theorem isDigits_filter {numeral : List Char} (h : Decimal.IsDigits numeral n) :
    Decimal.IsDigits (numeral.filter (· != '_')) n := by
  have hall : numeral.filter (· != '_') = numeral := by
    refine List.filter_eq_self.mpr fun c hc => bne_iff_ne.mpr ?_
    rintro rfl
    have hunderscore := h.2.1 _ hc
    cases hunderscore
  rwa [hall]

/-- A text with blanks around it. -/
def Surrounded (cs wrapped : List Char) : Prop :=
  ∃ before after, (∀ c ∈ before, Text.isBlank c = true) ∧ (∀ c ∈ after, Text.isBlank c = true) ∧
    wrapped = before ++ (cs ++ after)

theorem Surrounded.refl (cs : List Char) : Surrounded cs cs :=
  ⟨[], [], by simp, by simp, by simp⟩

theorem Plain.trim_eq {cs wrapped : List Char} (h : Plain cs) (hwrapped : Surrounded cs wrapped) :
    Text.trim wrapped = cs := by
  obtain ⟨before, after, hbefore, hafter, rfl⟩ := hwrapped
  exact Text.trim_surrounded hbefore hafter (h.2 _ (List.head_mem h.1)).1
    (h.2 _ (List.getLast_mem h.1)).1 (List.head?_eq_some_head h.1)
    (List.getLast?_eq_some_getLast h.1)

/-- The number of cells that is read off a numeral with underscores and blanks. -/
theorem memorySize?_of_isDigits {numeral wrapped : List Char}
    (h : Decimal.IsDigits (numeral.filter (· != '_')) n) (hwrapped : Surrounded numeral wrapped) :
    memorySize? wrapped = if 1 ≤ n ∧ n < 2 ^ 64 then some n else none := by
  rw [memorySize?, (plain_of_isDigits h).trim_eq hwrapped, Decimal.word?_of_isDigits h]
  by_cases hlt : n < 2 ^ 64
  · simp only [hlt, and_true]
    rfl
  · simp only [hlt, and_false, if_false]

/-! ## How an assignment is written -/

/-- How an assignment is laid out on its line. -/
structure Layout where
  indent : Gap
  /-- Before the equals sign. -/
  gap : Gap
  /-- Behind the equals sign. -/
  space : Gap
  quoted : Bool
  trail : Gap

namespace Layout

variable {key value : List Char}

/-- The value as it is written. -/
def spell (l : Layout) (value : List Char) : List Char :=
  if l.quoted then '"' :: (value ++ ['"']) else value

/-- The line that assigns `value` to `key`. -/
def chars (l : Layout) (key value : List Char) : List Char :=
  l.indent.text ++
    (key ++ l.gap.text ++ '=' :: (l.space.text ++ l.spell value) ++ l.trail.text)

/-- What is written of a plain value has no blanks at its ends. -/
theorem exists_ends (l : Layout) (hvalue : Plain value) :
    ∃ a z, (l.spell value).head? = some a ∧ (l.spell value).getLast? = some z ∧
      Text.isBlank a = false ∧ Text.isBlank z = false := by
  unfold spell
  split
  · exact ⟨'"', '"', rfl, by rw [← List.cons_append, List.getLast?_concat], rfl, rfl⟩
  · exact ⟨_, _, List.head?_eq_some_head hvalue.1, List.getLast?_eq_some_getLast hvalue.1,
      (hvalue.2 _ (List.head_mem hvalue.1)).1, (hvalue.2 _ (List.getLast_mem hvalue.1)).1⟩

theorem unquoted_spell (l : Layout) (hvalue : Plain value) : Unquoted (l.spell value) value := by
  unfold spell
  split
  · exact .quoted value
  · refine .plain fun inner hinner => ?_
    exact (hvalue.2 '"' (hinner ▸ List.mem_cons_self)).2 (by decide)

/-- Whatever the layout, the line spells the assignment. -/
theorem spells (l : Layout) (hkey : Plain key) (hvalue : Plain value) :
    Line.Spells (l.chars key value) (.assignment key value) := by
  obtain ⟨a, z, hfirst, hlast, ha, hz⟩ := l.exists_ends hvalue
  have hhead := List.head?_eq_some_head hkey.1
  have hplain := hkey.2 _ (List.head_mem hkey.1)
  have hbefore : Text.trim (key ++ l.gap.text) = key :=
    hkey.trim_eq ⟨[], l.gap.text, by simp, l.gap.blank, rfl⟩
  have hafter : Text.trim (l.space.text ++ l.spell value) = l.spell value := by
    have hgap : ∀ c ∈ ([] : List Char), Text.isBlank c = true := by simp
    simpa using Text.trim_surrounded l.space.blank hgap ha hz hfirst hlast
  have hstart : (key ++ l.gap.text ++ '=' :: (l.space.text ++ l.spell value)).head? =
      some (key.head hkey.1) := by
    rw [List.append_assoc, List.head?_append, hhead, Option.some_or]
  have hend : (key ++ l.gap.text ++ '=' :: (l.space.text ++ l.spell value)).getLast? = some z := by
    rw [← List.cons_append, ← List.append_assoc, List.getLast?_append, hlast, Option.some_or]
  -- trimming takes the indent and the trail and nothing else
  have htrim : Text.trim (l.chars key value) =
      key ++ l.gap.text ++ '=' :: (l.space.text ++ l.spell value) :=
    Text.trim_surrounded l.indent.blank l.trail.blank hplain.1 hz hstart hend
  have hcomment : (Text.trim (l.chars key value)).head? ≠ some '#' := by
    rw [htrim, hstart]
    exact fun h => hplain.2 (by rw [Option.some.inj h]; decide)
  have hheader : ∀ inner, Text.trim (l.chars key value) ≠ '[' :: (inner ++ [']']) := by
    intro inner h
    rw [htrim] at h
    rw [h, List.head?_cons] at hstart
    exact hplain.2 (by rw [← Option.some.inj hstart]; decide)
  have hequals : '=' ∉ key ++ l.gap.text := by
    intro hmem
    rcases List.mem_append.mp hmem with hmem | hmem
    · exact (hkey.2 _ hmem).2 (by decide)
    · have hblank := l.gap.blank _ hmem
      cases hblank
  have hspells := Line.Spells.assignment hcomment hheader htrim hequals
    (hafter.symm ▸ l.unquoted_spell hvalue)
  rwa [hbefore] at hspells

theorem newline_not_mem_chars (l : Layout) (hkey : Plain key) (hvalue : Plain value) :
    '\n' ∉ l.chars key value := by
  have hplain : ∀ {cs}, Plain cs → '\n' ∉ cs := fun h hmem => by
    have hblank := (h.2 _ hmem).1
    cases hblank
  have hspell : '\n' ∉ l.spell value := by
    unfold spell
    split <;> simp [hplain hvalue]
  simp [chars, l.indent.single, l.gap.single, l.space.single, l.trail.single, hplain hkey, hspell]

end Layout

/-- A file that assigns both settings in a section of the engine, and nothing behind that. -/
structure Arrangement where
  /-- The lines before the section. -/
  front : List Piece
  header : Piece
  names : Line.Spells header.text (.header sectionName.toList)
  memory : Layout
  timeout : Layout
  /-- Whether the timeout is assigned first. -/
  swapped : Bool
  rest : List Gap

namespace Arrangement

/-- The two assignments in their order. -/
def pair {α : Type} (a : Arrangement) (memory timeout : α) : List α :=
  if a.swapped then [timeout, memory] else [memory, timeout]

/-- The lines of the file that assigns these values. -/
def texts (a : Arrangement) (memory timeout : List Char) : List (List Char) :=
  a.front.map Piece.text ++ a.header.text ::
    (a.pair (a.memory.chars "memory_size".toList memory)
      (a.timeout.chars "timeout_ms".toList timeout) ++ a.rest.map fun gap => gap.text)

/-- The file that assigns these values. -/
def chars (a : Arrangement) (memory timeout : List Char) : List Char :=
  ['\n'].intercalate (a.texts memory timeout)

variable {memory timeout : List Char}

theorem lines_chars (a : Arrangement) (hmemory : Plain memory) (htimeout : Plain timeout) :
    Text.lines (a.chars memory timeout) = a.texts memory timeout := by
  refine Text.lines_intercalate (fun text htext => ?_) (by simp [texts])
  have hmemoryLine := a.memory.newline_not_mem_chars (by decide : Plain "memory_size".toList) hmemory
  have htimeoutLine :=
    a.timeout.newline_not_mem_chars (by decide : Plain "timeout_ms".toList) htimeout
  rcases List.mem_append.mp htext with hfront | hrest
  · obtain ⟨piece, -, rfl⟩ := List.mem_map.mp hfront
    exact piece.single
  · rcases List.mem_cons.mp hrest with rfl | hrest
    · exact a.header.single
    · rcases List.mem_append.mp hrest with hpair | hgap
      · unfold pair at hpair
        split at hpair <;>
          (rcases List.mem_pair.mp hpair with rfl | rfl <;> assumption)
      · obtain ⟨gap, -, rfl⟩ := List.mem_map.mp hgap
        exact gap.single

theorem ofChars_gap (gap : Gap) : Line.ofChars gap.text = .other := by
  have hnil : Text.trim gap.text = [] := by
    have hstart := Text.trimStart_append_of_blank gap.blank []
    rw [List.append_nil] at hstart
    rw [Text.trim, hstart]
    rfl
  rw [Line.ofChars, hnil]
  rfl

theorem assignmentsFrom_gaps (name : List Char) (inside : Bool) (gaps : List Gap) :
    assignmentsFrom name inside ((gaps.map fun gap => gap.text).map Line.ofChars) = [] := by
  induction gaps with
  | nil => rfl
  | cons gap gaps ih => simpa [assignmentsFrom, ofChars_gap] using ih

/-- The two assignments are the last ones that the file makes in the section. -/
theorem assignments_chars (a : Arrangement) (hmemory : Plain memory) (htimeout : Plain timeout) :
    assignments sectionName.toList (a.chars memory timeout) =
      assignmentsFrom sectionName.toList false ((a.front.map Piece.text).map Line.ofChars) ++
        a.pair ("memory_size".toList, memory) ("timeout_ms".toList, timeout) := by
  have hmemoryLine := (a.memory.spells (by decide : Plain "memory_size".toList) hmemory).ofChars_eq
  have htimeoutLine := (a.timeout.spells (by decide : Plain "timeout_ms".toList) htimeout).ofChars_eq
  rw [assignments, a.lines_chars hmemory htimeout, texts, List.map_append, assignmentsFrom_append,
    List.map_cons, a.names.ofChars_eq, assignmentsFrom, BEq.rfl, List.map_append]
  congr 1
  unfold pair
  split <;>
    simp only [List.map_cons, List.map_nil, hmemoryLine, htimeoutLine, List.cons_append,
      List.nil_append, assignmentsFrom, if_true, assignmentsFrom_gaps]

theorem lookup_memory (a : Arrangement) (hmemory : Plain memory) (htimeout : Plain timeout) :
    lookup "memory_size".toList (assignments sectionName.toList (a.chars memory timeout)) =
      some memory := by
  rw [a.assignments_chars hmemory htimeout, lookup_append, pair]
  split <;> rfl

theorem lookup_timeout (a : Arrangement) (hmemory : Plain memory) (htimeout : Plain timeout) :
    lookup "timeout_ms".toList (assignments sectionName.toList (a.chars memory timeout)) =
      some timeout := by
  rw [a.assignments_chars hmemory htimeout, lookup_append, pair]
  split <;> rfl

end Arrangement

/-! ## What is read -/

section Reading

variable {memory timeout : List Char} {N T : Nat}

/-- The file gives the two numbers, and there is nothing to warn about. -/
theorem Arrangement.applyFile_chars (a : Arrangement)
    (hN : Decimal.IsDigits (memory.filter (· != '_')) N) (hT : Decimal.IsDigits timeout T)
    (hcells : 1 ≤ N ∧ N < 2 ^ 64) (hword : T < 2 ^ 64) (s : Settings) :
    s.applyFile (a.chars memory timeout) = (⟨N, some T⟩, []) := by
  have hmemory := plain_of_isDigits hN
  have htimeout := plain_of_isDigits (isDigits_filter hT)
  have hvalueN : memorySize? memory = some N := by
    rw [memorySize?_of_isDigits hN (Surrounded.refl memory), if_pos hcells]
  have hvalueT : Decimal.word? timeout = some T := by
    rw [Decimal.word?_of_isDigits hT, if_pos hword]
  simp only [applyFile, a.lookup_memory hmemory htimeout, a.lookup_timeout hmemory htimeout,
    applyMemorySize, applyTimeout, hvalueN, hvalueT, List.append_nil]

/-- What the environment gives for digits with blanks around them. -/
theorem applyEnvironment_memorySize {getVar : String → Option String} {v : String}
    (hN : Decimal.IsDigits (memory.filter (· != '_')) N) (hv : getVar "JBF_MEMORY_SIZE" = some v)
    (hsurrounded : Surrounded memory v.toList) (s : Settings) :
    (s.applyEnvironment getVar).memorySize = if 1 ≤ N ∧ N < 2 ^ 64 then N else s.memorySize := by
  simp only [applyEnvironment, hv, Option.bind_some, memorySize?_of_isDigits hN hsurrounded]
  split <;> rfl

theorem applyEnvironment_timeoutMs {getVar : String → Option String} {w : String}
    (hT : Decimal.IsDigits timeout T) (hw : getVar "JBF_TIMEOUT_MS" = some w)
    (hsurrounded : Surrounded timeout w.toList) (s : Settings) :
    (s.applyEnvironment getVar).timeoutMs = if T < 2 ^ 64 then some T else s.timeoutMs := by
  have htimeout := plain_of_isDigits (isDigits_filter hT)
  simp only [applyEnvironment, hw, Option.bind_some, htimeout.trim_eq hsurrounded,
    Decimal.word?_of_isDigits hT]
  split <;> rfl

/-- Digits of a number that is no word change nothing, and are warned about. -/
theorem applyFile_of_great_memory {content : List Char} {i : Nat}
    (hN : Decimal.IsDigits (memory.filter (· != '_')) N) (hge : 2 ^ 64 ≤ N)
    (heffective : EffectiveAt content "memory_size".toList i memory) (s : Settings) :
    (s.applyFile content).1.memorySize = s.memorySize ∧
      warning "memory_size" memory ∈ (s.applyFile content).2 := by
  have hvalue : memorySize? memory = none := by
    rw [memorySize?_of_isDigits hN (Surrounded.refl memory),
      if_neg fun h => Nat.not_lt.mpr hge h.2]
  have hlookup := lookup_eq_some_iff.mpr ⟨i, heffective⟩
  simp only [applyFile, hlookup, applyMemorySize, hvalue, applyTimeout_fst]
  exact ⟨trivial, by simp⟩

theorem applyFile_of_great_timeout {content : List Char} {i : Nat}
    (hT : Decimal.IsDigits timeout T) (hge : 2 ^ 64 ≤ T)
    (heffective : EffectiveAt content "timeout_ms".toList i timeout) (s : Settings) :
    (s.applyFile content).1.timeoutMs = s.timeoutMs ∧
      warning "timeout_ms" timeout ∈ (s.applyFile content).2 := by
  have hvalue : Decimal.word? timeout = none := by
    rw [Decimal.word?_of_isDigits hT, if_neg (Nat.not_lt.mpr hge)]
  have hlookup := lookup_eq_some_iff.mpr ⟨i, heffective⟩
  simp only [applyFile, hlookup, applyTimeout, hvalue, applyMemorySize_fst]
  exact ⟨trivial, by simp⟩

end Reading

/-- Numbers are read exactly or not at all. A text gives a number of cells if and only if, without
blanks around it and without underscores, it is a numeral of that number, which is a word and not
zero. The digits of a number, zeros in front of them and for the cells underscores anywhere in them,
give that number, in the file with blanks and quotes, the two settings in either order and whatever
stands before their section, and in the environment with blanks around them. Digits of a number that
is no word change nothing, and if they take effect in the file there is a warning. -/
theorem numbers_are_read_exactly :
    (∀ v n, memorySize? v = some n ↔
      Decimal.IsNumeral ((Text.trim v).filter (· != '_')) n ∧ 1 ≤ n ∧ n ≤ 2 ^ 64 - 1) ∧
    (∀ cs n, Decimal.IsDigits cs n ↔
      ∃ zeros, cs = List.replicate zeros '0' ++ Nat.toDigits 10 n) ∧
    ∀ (s : Settings) (getVar : String → Option String) (memory timeout : List Char) (N T : Nat),
      Decimal.IsDigits (memory.filter (· != '_')) N → Decimal.IsDigits timeout T →
      (1 ≤ N → N < 2 ^ 64 → T < 2 ^ 64 →
        (∀ a : Arrangement, s.applyFile (a.chars memory timeout) = (⟨N, some T⟩, [])) ∧
        ∀ v w, getVar "JBF_MEMORY_SIZE" = some v → getVar "JBF_TIMEOUT_MS" = some w →
          Surrounded memory v.toList → Surrounded timeout w.toList →
          s.applyEnvironment getVar = ⟨N, some T⟩) ∧
      (2 ^ 64 ≤ N →
        (∀ content i, EffectiveAt content "memory_size".toList i memory →
          (s.applyFile content).1.memorySize = s.memorySize ∧
            warning "memory_size" memory ∈ (s.applyFile content).2) ∧
        ∀ v, getVar "JBF_MEMORY_SIZE" = some v → Surrounded memory v.toList →
          (s.applyEnvironment getVar).memorySize = s.memorySize) ∧
      (2 ^ 64 ≤ T →
        (∀ content i, EffectiveAt content "timeout_ms".toList i timeout →
          (s.applyFile content).1.timeoutMs = s.timeoutMs ∧
            warning "timeout_ms" timeout ∈ (s.applyFile content).2) ∧
        ∀ w, getVar "JBF_TIMEOUT_MS" = some w → Surrounded timeout w.toList →
          (s.applyEnvironment getVar).timeoutMs = s.timeoutMs) := by
  refine ⟨fun v n => memorySize?_eq_some_iff, fun cs n => Decimal.isDigits_iff_exists_zeros,
    fun s getVar memory timeout N T hN hT => ⟨fun hpos hltN hltT => ⟨fun a => ?_, ?_⟩,
      fun hge => ⟨fun content i heffective => ?_, fun v hv hsurrounded => ?_⟩,
      fun hge => ⟨fun content i heffective => ?_, fun w hw hsurrounded => ?_⟩⟩⟩
  · exact a.applyFile_chars hN hT ⟨hpos, hltN⟩ hltT s
  · intro v w hv hw hsurrounded hsurrounded'
    have hcells := applyEnvironment_memorySize hN hv hsurrounded s
    have hlimit := applyEnvironment_timeoutMs hT hw hsurrounded' s
    rw [if_pos ⟨hpos, hltN⟩] at hcells
    rw [if_pos hltT] at hlimit
    exact congrArg₂ Settings.mk hcells hlimit
  · exact applyFile_of_great_memory hN hge heffective s
  · rw [applyEnvironment_memorySize hN hv hsurrounded, if_neg fun h => Nat.not_lt.mpr hge h.2]
  · exact applyFile_of_great_timeout hT hge heffective s
  · rw [applyEnvironment_timeoutMs hT hw hsurrounded, if_neg (Nat.not_lt.mpr hge)]

/-- The greatest word as the number of cells, with a zero in front of it and an underscore, and the
word after it, which is none. -/
theorem numbers_are_read_exactly_at_the_limit :
    let memory := "0_18446744073709551615".toList
    let timeout := "00".toList
    let a : Arrangement :=
      ⟨[], ⟨"[engine]".toList, by decide⟩, Line.spells_iff.mpr (by decide),
        ⟨.space, .space, .none, true, .none⟩, ⟨.none, .none, .none, false, .space⟩, true, []⟩
    a.chars memory timeout =
        "[engine]\ntimeout_ms=00 \n memory_size =\"0_18446744073709551615\"".toList ∧
      default.applyFile (a.chars memory timeout) = (⟨2 ^ 64 - 1, some 0⟩, []) ∧
      (default.applyFile "[engine]\nmemory_size=18446744073709551616".toList).1.memorySize =
        30000 := by
  intro memory timeout a
  obtain ⟨-, -, hread⟩ := numbers_are_read_exactly
  have hmemory : Decimal.IsDigits (memory.filter (· != '_')) (2 ^ 64 - 1) := by decide
  have hgreat : Decimal.IsDigits ("18446744073709551616".toList.filter (· != '_')) (2 ^ 64) := by
    decide
  have htimeout : Decimal.IsDigits timeout 0 := by decide
  refine ⟨by decide, ?_, ?_⟩
  · exact ((hread default (fun _ => none) memory timeout _ _ hmemory htimeout).1
      (by decide) (by decide) (by decide)).1 a
  · obtain ⟨i, heffective⟩ := lookup_eq_some_iff.mp (by decide +kernel :
      lookup "memory_size".toList (assignments sectionName.toList
        "[engine]\nmemory_size=18446744073709551616".toList) = some "18446744073709551616".toList)
    exact (((hread default (fun _ => none) _ timeout _ _ hgreat htimeout).2.1 (by decide)).1
      _ i heffective).1

end Settings

end Brainfuck
