/-!
# Blanks

The blanks of a text are the characters with the Unicode property White_Space, and `trim` takes them
off both ends. Two invisible characters are not among them: the byte order mark U+FEFF and the
zero-width space U+200B.
-/

namespace Brainfuck.Text

/-- The characters with the property White_Space, in order. -/
def blanks : List Char :=
  ['\u0009', '\u000a', '\u000b', '\u000c', '\u000d', '\u0020', '\u0085', '\u00a0', '\u1680',
    '\u2000', '\u2001', '\u2002', '\u2003', '\u2004', '\u2005', '\u2006', '\u2007', '\u2008',
    '\u2009', '\u200a', '\u2028', '\u2029', '\u202f', '\u205f', '\u3000']

/-- The character is a blank. -/
def isBlank (c : Char) : Bool :=
  blanks.contains c

/-- The text without the blanks at its start. -/
def trimStart (cs : List Char) : List Char :=
  cs.dropWhile isBlank

/-- The text without the blanks at its end. -/
def trimEnd (cs : List Char) : List Char :=
  (cs.reverse.dropWhile isBlank).reverse

/-- The text without the blanks at its ends. -/
def trim (cs : List Char) : List Char :=
  trimEnd (trimStart cs)

/-- What stands between the line feeds of a text. -/
def lines : List Char → List (List Char)
  | [] => [[]]
  | c :: cs =>
    if c = '\n' then [] :: lines cs
    else
      match lines cs with
      | line :: rest => (c :: line) :: rest
      | [] => [[c]]

/-! ## What is taken off -/

theorem trimStart_append_of_blank {indent : List Char} (h : ∀ c ∈ indent, isBlank c = true)
    (cs : List Char) : trimStart (indent ++ cs) = trimStart cs :=
  List.dropWhile_append_of_pos h

theorem trimStart_cons {c : Char} (h : isBlank c = false) (cs : List Char) :
    trimStart (c :: cs) = c :: cs :=
  List.dropWhile_cons_of_neg (Bool.not_eq_true _ ▸ h)

theorem trimStart_cons_of_blank {c : Char} (h : isBlank c = true) (cs : List Char) :
    trimStart (c :: cs) = trimStart cs :=
  List.dropWhile_cons_of_pos h

theorem trimEnd_append_of_blank {gap : List Char} (h : ∀ c ∈ gap, isBlank c = true)
    (cs : List Char) : trimEnd (cs ++ gap) = trimEnd cs := by
  have hreverse : ∀ c ∈ gap.reverse, isBlank c = true := fun c hc => h c (List.mem_reverse.mp hc)
  rw [trimEnd, trimEnd, List.reverse_append, List.dropWhile_append_of_pos hreverse]

/-- Nothing is taken off in front of a character that is no blank. -/
theorem trimEnd_append_cons {c : Char} (h : isBlank c = false) (cs rest : List Char) :
    trimEnd (cs ++ c :: rest) = cs ++ c :: trimEnd rest := by
  have hstop : (c :: cs.reverse).dropWhile isBlank = c :: cs.reverse := by simp [h]
  have hreverse : (cs ++ c :: rest).reverse = rest.reverse ++ c :: cs.reverse := by simp
  have hdrop : (rest.reverse ++ c :: cs.reverse).dropWhile isBlank =
      rest.reverse.dropWhile isBlank ++ c :: cs.reverse := by
    rw [List.dropWhile_append, hstop]
    split
    · next hempty => rw [List.isEmpty_iff.mp hempty, List.nil_append]
    · rfl
  rw [trimEnd, hreverse, hdrop]
  simp [trimEnd]

theorem trimEnd_cons {c : Char} (h : isBlank c = false) (rest : List Char) :
    trimEnd (c :: rest) = c :: trimEnd rest :=
  trimEnd_append_cons h [] rest

/-- Blanks around a text that has none at its ends are taken off, and nothing else. -/
theorem trim_surrounded {indent gap cs : List Char} {a z : Char}
    (hindent : ∀ c ∈ indent, isBlank c = true) (hgap : ∀ c ∈ gap, isBlank c = true)
    (ha : isBlank a = false) (hz : isBlank z = false)
    (hfirst : cs.head? = some a) (hlast : cs.getLast? = some z) :
    trim (indent ++ (cs ++ gap)) = cs := by
  obtain ⟨rest, hrest⟩ := List.head?_eq_some_iff.mp hfirst
  obtain ⟨front, hfront⟩ := List.getLast?_eq_some_iff.mp hlast
  have hstart : trimStart (indent ++ (cs ++ gap)) = cs ++ gap := by
    rw [trimStart_append_of_blank hindent, hrest, List.cons_append, trimStart_cons ha]
  rw [trim, hstart, trimEnd_append_of_blank hgap, hfront]
  exact trimEnd_append_cons hz front []

/-- A trimmed text begins where the blanks at the start end. -/
theorem head?_trim (cs : List Char) : (trim cs).head? = (trimStart cs).head? := by
  induction cs with
  | nil => rfl
  | cons c cs ih =>
    cases hc : isBlank c with
    | true => rwa [trim, trimStart_cons_of_blank hc]
    | false => rw [trim, trimStart_cons hc, trimEnd_cons hc, List.head?_cons, List.head?_cons]

theorem mem_trim {c : Char} (h : isBlank c = false) {cs : List Char} (hc : c ∈ cs) : c ∈ trim cs := by
  obtain ⟨front, rest, rfl⟩ := List.append_of_mem hc
  induction front with
  | nil => simp [trim, trimStart_cons h, trimEnd_cons h]
  | cons x front ih =>
    cases hx : isBlank x with
    | true =>
      rw [trim, List.cons_append, trimStart_cons_of_blank hx]
      exact ih (by simp)
    | false =>
      rw [trim, List.cons_append, trimStart_cons hx, ← List.cons_append, trimEnd_append_cons h]
      simp

/-! ## Lines -/

theorem lines_ne_nil (cs : List Char) : lines cs ≠ [] := by
  cases cs with
  | nil => simp [lines]
  | cons c cs =>
    unfold lines
    split
    · simp
    · split <;> simp

/-- A line without a line feed is the first line of a text that has a line feed behind it. -/
theorem lines_append_newline {line : List Char} (h : '\n' ∉ line) (rest : List Char) :
    lines (line ++ '\n' :: rest) = line :: lines rest := by
  induction line with
  | nil => simp [lines]
  | cons c line ih =>
    have hc : c ≠ '\n' := fun hc => h (hc ▸ List.mem_cons_self)
    have hline : '\n' ∉ line := fun hmem => h (List.mem_cons_of_mem _ hmem)
    simp [lines, hc, ih hline]

theorem lines_of_not_mem {line : List Char} (h : '\n' ∉ line) : lines line = [line] := by
  induction line with
  | nil => rfl
  | cons c line ih =>
    have hc : c ≠ '\n' := fun hc => h (hc ▸ List.mem_cons_self)
    have hline : '\n' ∉ line := fun hmem => h (List.mem_cons_of_mem _ hmem)
    simp [lines, hc, ih hline]

/-- No line has a line feed in it. -/
theorem newline_not_mem_lines {cs line : List Char} (h : line ∈ lines cs) : '\n' ∉ line := by
  induction cs generalizing line with
  | nil =>
    obtain rfl := List.mem_singleton.mp h
    exact List.not_mem_nil
  | cons c cs ih =>
    unfold lines at h
    split at h
    · rcases List.mem_cons.mp h with rfl | h
      · exact List.not_mem_nil
      · exact ih h
    · next hc =>
      split at h
      · next first rest hlines =>
        rw [hlines] at ih
        rcases List.mem_cons.mp h with rfl | h
        · exact List.not_mem_cons_of_ne_of_not_mem (Ne.symm hc) (ih List.mem_cons_self)
        · exact ih (List.mem_cons_of_mem first h)
      · next hnil => exact absurd hnil (lines_ne_nil cs)

/-- The lines of a text that has been joined from lines. -/
theorem lines_intercalate {texts : List (List Char)} (h : ∀ text ∈ texts, '\n' ∉ text)
    (hne : texts ≠ []) : lines (['\n'].intercalate texts) = texts := by
  induction texts with
  | nil => exact absurd rfl hne
  | cons text texts ih =>
    have htext := h text List.mem_cons_self
    cases texts with
    | nil => rw [List.intercalate_singleton, lines_of_not_mem htext]
    | cons next texts =>
      have hrest := ih (fun text hmem => h text (List.mem_cons_of_mem _ hmem)) (List.cons_ne_nil _ _)
      rw [List.intercalate_cons_cons, List.append_assoc, List.singleton_append,
        lines_append_newline htext, hrest]

end Brainfuck.Text
