import Brainfuck.Proofs.Safety
import Brainfuck.Report.Checked
import Brainfuck.Text.Blank

/-!
# Where a report points

A report of a fault with a place has three lines: a headline, a piece of the source and a caret. Near
both ends of the text the piece is cut off, at its start the caret moves with it, and line ends and
tabs are shown as blanks; all the same the caret stands under the character at the reported position
(`Report.getElem?_sourceLine`), since a piece starts `reach` characters before the position or, if
there are fewer, at the start of the text. A fault of a run is about an operator that stands in the
text at the position that the fault reports (`System.blames_of_result`), and an operator is shown as
it is. Together: the caret points at the operator that failed.

A report can also be asked for at any machine word, in the text or not, and what it has to show there
can be said in integers (`Report.Shows`). The end of the piece is a sum of words, which is too great
for a word at the last 33 positions of all. Where the sum wraps around the lines are right even so,
since the piece is empty there in any case; but where it is looked at the report breaks off
(`Report.report_is_exact_or_breaks_off`).
-/

namespace Brainfuck

namespace Report

variable {code : List Char} {ip : Nat}

/-! ## The shown piece of the source -/

theorem shown_toChar (op : Op) : shown op.toChar = op.toChar := by
  cases op <;> rfl

theorem shown_ne (c : Char) : shown c ≠ '\n' ∧ shown c ≠ '\r' ∧ shown c ≠ '\t' := by
  unfold shown
  split
  · decide
  · next h => simpa [not_or] using h

/-- A text that fits into memory has room behind it for the reach of a report. -/
theorem toNat_ofNat_of_lt (hip : ip < code.length) (hcode : code.length < UInt64.size / 2) :
    (UInt64.ofNat ip).toNat = ip := by
  rw [UInt64.toNat_ofNat_of_lt']
  omega

theorem windowStart_toNat (pos : UInt64) : (windowStart pos).toNat = pos.toNat - 32 := by
  unfold windowStart reach
  split
  · next h =>
    have hlt : pos.toNat < 32 := UInt64.lt_iff_toNat_lt.mp h
    rw [Nat.sub_eq_zero_of_le (Nat.le_of_lt hlt)]
    rfl
  · next h =>
    have hle : (32 : UInt64) ≤ pos := UInt64.not_lt.mp h
    rw [UInt64.toNat_sub_of_le _ _ hle]
    rfl

/-- The shown piece ends 33 characters behind the position or with the text. The sum for its end leaves
the machine words only where the text is long over, and the piece is empty either way. -/
theorem windowStop_sub_eq {total : Nat} (htotal : total < UInt64.size / 2) (pos : UInt64) :
    windowStop pos total - (pos.toNat - 32) = min (pos.toNat + 33) total - (pos.toNat - 32) := by
  have hpos : pos.toNat < 2 ^ 64 := pos.toNat_lt
  have htotal' : total < 2 ^ 63 := htotal
  have hsum : (pos + reach + 1).toNat = (pos.toNat + 33) % 2 ^ 64 := toNat_behind pos
  rw [windowStop, hsum]
  by_cases hroom : pos.toNat + 33 < 2 ^ 64
  · rw [Nat.mod_eq_of_lt hroom]
  · -- both ends are before the start of the piece
    have hstop : min ((pos.toNat + 33) % 2 ^ 64) total ≤ pos.toNat - 32 := by omega
    have hstop' : min (pos.toNat + 33) total ≤ pos.toNat - 32 := by omega
    rw [Nat.sub_eq_zero_of_le hstop, Nat.sub_eq_zero_of_le hstop']

/-- The shown piece reaches from 32 characters before the position to 32 behind it, as far as the text
does. -/
theorem sourceLine_eq (hcode : code.length < UInt64.size / 2) (pos : UInt64) :
    sourceLine code pos = ((code.drop (pos.toNat - 32)).take
      (min (pos.toNat + 33) code.length - (pos.toNat - 32))).map shown := by
  simp only [sourceLine, windowStart_toNat, windowStop_sub_eq hcode]

theorem length_sourceLine (hcode : code.length < UInt64.size / 2) (pos : UInt64) :
    (sourceLine code pos).length =
      min (pos.toNat + 33) code.length - (pos.toNat - 32) := by
  rw [sourceLine_eq hcode, List.length_map, List.length_take, List.length_drop]
  omega

/-- The characters of the shown piece are those of the text from the start of the piece on. -/
theorem getElem?_sourceLine_of_lt (hcode : code.length < UInt64.size / 2) (pos : UInt64) {i : Nat}
    (hi : i < (sourceLine code pos).length) :
    (sourceLine code pos)[i]? = code[pos.toNat - 32 + i]?.map shown := by
  rw [length_sourceLine hcode] at hi
  rw [sourceLine_eq hcode, List.getElem?_map, List.getElem?_take_of_lt hi, List.getElem?_drop]

theorem length_sourceLine_le (hip : ip < code.length) (hcode : code.length < UInt64.size / 2) :
    (sourceLine code (UInt64.ofNat ip)).length ≤ 65 := by
  rw [length_sourceLine hcode, toNat_ofNat_of_lt hip hcode]
  omega

theorem ne_of_mem_sourceLine {pos : UInt64} {c : Char} (h : c ∈ sourceLine code pos) :
    c ≠ '\n' ∧ c ≠ '\r' ∧ c ≠ '\t' := by
  obtain ⟨c', -, rfl⟩ := List.mem_map.mp h
  exact shown_ne c'

/-- The character over the caret is the one at the position. -/
theorem getElem?_sourceLine (hip : ip < code.length) (hcode : code.length < UInt64.size / 2) :
    (sourceLine code (UInt64.ofNat ip))[ip - (ip - 32)]? = code[ip]?.map shown := by
  have hpos := toNat_ofNat_of_lt hip hcode
  have hlt : ip - (ip - 32) < (sourceLine code (UInt64.ofNat ip)).length := by
    rw [length_sourceLine hcode, hpos]
    omega
  rw [getElem?_sourceLine_of_lt hcode _ hlt, hpos, Nat.add_sub_of_le (Nat.sub_le ip 32)]

theorem caretLine_eq (pos : UInt64) :
    caretLine pos = List.replicate (pos.toNat - (pos.toNat - 32)) ' ' ++ ['^'] := by
  have hle : windowStart pos ≤ pos := by
    rw [UInt64.le_iff_toNat_le, windowStart_toNat]
    exact Nat.sub_le _ _
  rw [caretLine, UInt64.toNat_sub_of_le _ _ hle, windowStart_toNat]

/-! ## The lines of a report -/

theorem newline_not_mem_repr (n : Nat) : '\n' ∉ (Nat.repr n).toList := by
  rw [Nat.toList_repr]
  intro hmem
  have hdigit := Nat.isDigit_of_mem_toDigits (by decide) (by decide) hmem
  exact absurd hdigit (by decide)

/-- What is said about a fault of an operator has no line feed. -/
theorem newline_not_mem_describe {cause : Fault} {op : Op} (h : cause.Blames ip op) :
    '\n' ∉ (describe cause).toList := by
  cases h with
  | @move _ pointer _ move =>
    have hpointer := newline_not_mem_repr pointer
    have hop : '\n' ≠ op.toChar := by cases op <;> decide
    unfold describe
    simp only [String.toList_append, List.mem_append, not_or]
    refine ⟨⟨⟨⟨by decide, hpointer⟩, by decide⟩, ?_⟩, by decide⟩
    show '\n' ∉ (String.singleton op.toChar).toList
    simpa using hop
  | opening | closing =>
    unfold describe
    simp only [String.toList_append, List.mem_append, not_or]
    exact ⟨by decide, by decide⟩

/-- What a report says that is shown on no terminal. -/
def said (program : Option String) (cause : Fault) : List Char :=
  match program with
  | some name => name.toList ++ ": ".toList ++ (describe cause).toList
  | none => (describe cause).toList

theorem newline_not_mem_said {program : Option String} {cause : Fault} {op : Op}
    (hprogram : ∀ name, program = some name → '\n' ∉ name.toList) (h : cause.Blames ip op) :
    '\n' ∉ said program cause := by
  have hdescribe := newline_not_mem_describe h
  cases program with
  | none => exact hdescribe
  | some name =>
    simp only [said, List.mem_append, not_or]
    exact ⟨⟨hprogram name rfl, by decide⟩, hdescribe⟩

/-- A text as it stands inside another one is that text. -/
theorem toString_text (text : String) : toString text = text :=
  rfl

/-- A report with a place from its first character to its last. -/
theorem toList_atPosition (terminal : Bool) (text : String) (code : List Char) (pos : UInt64) :
    (atPosition terminal text code pos).toList =
      (headline terminal text).toList ++ " at instruction ".toList ++
        (toString pos.toNat).toList ++ '\n' ::
      ((' ' :: ' ' :: sourceLine code pos) ++ '\n' ::
      ((' ' :: ' ' :: caretLine pos) ++ '\n' :: [])) := by
  simp [atPosition, toString_text]

/-- The report of a fault of an operator, from its first character to its last. -/
theorem toList_ofError {program : Option String} {cause : Fault} {op : Op} (h : cause.Blames ip op) :
    (ofError false program code cause).toList =
      (said program cause ++ " at instruction ".toList ++
        (Nat.repr (UInt64.ofNat ip).toNat).toList) ++ '\n' ::
      ((' ' :: ' ' :: sourceLine code (UInt64.ofNat ip)) ++ '\n' ::
      ((' ' :: ' ' :: caretLine (UInt64.ofNat ip)) ++ '\n' :: [])) := by
  have hip : cause.ip? = some ip := by cases h <;> rfl
  cases program <;> simp [ofError, hip, toList_atPosition, headline, said, toString_text]

/-- The three lines of a report of a fault of an operator, each with its line feed. -/
theorem lines_ofError {program : Option String} {cause : Fault} {op : Op} (h : cause.Blames ip op)
    (hprogram : ∀ name, program = some name → '\n' ∉ name.toList) (hip : ip < code.length)
    (hcode : code.length < UInt64.size / 2) :
    Text.lines (ofError false program code cause).toList =
      [said program cause ++ " at instruction ".toList ++ (Nat.repr ip).toList,
        ' ' :: ' ' :: sourceLine code (UInt64.ofNat ip),
        ' ' :: ' ' :: (List.replicate (ip - (ip - 32)) ' ' ++ ['^']), []] := by
  have hheader : '\n' ∉ said program cause ++ " at instruction ".toList ++ (Nat.repr ip).toList := by
    simp only [List.mem_append, not_or]
    exact ⟨⟨newline_not_mem_said hprogram h, by decide⟩, newline_not_mem_repr ip⟩
  have hsource : '\n' ∉ ' ' :: ' ' :: sourceLine code (UInt64.ofNat ip) := by
    have hline : '\n' ∉ sourceLine code (UInt64.ofNat ip) := fun hmem =>
      (ne_of_mem_sourceLine hmem).1 rfl
    simpa using hline
  have hcaret : '\n' ∉ ' ' :: ' ' :: (List.replicate (ip - (ip - 32)) ' ' ++ ['^']) := by
    simp
  rw [toList_ofError h, caretLine_eq, toNat_ofNat_of_lt hip hcode,
    Text.lines_append_newline hheader, Text.lines_append_newline hsource,
    Text.lines_append_newline hcaret, Text.lines]

example : ofError false (some "jbf") "+é\n]".toList (.unmatched 3 .closing) =
    "jbf: Runtime error: unmatched bracket ']' at instruction 3\n  +é ]\n     ^\n" := by
  decide

/-! ## Any position -/

/-- Where the shown piece starts, in integers. -/
def exactStart (pos : Nat) : Int :=
  max ((pos : Int) - 32) 0

/-- Where the shown piece of a text with `total` characters stops, in integers, which have no greatest
one. -/
def exactStop (pos total : Nat) : Int :=
  min ((pos : Int) + 33) total

/-- What a report shows of a text at a position that may be in the text or behind it. -/
structure Shows (code : List Char) (pos : Nat) (piece caret : List Char) : Prop where
  /-- The piece reaches from its start up to its stop. -/
  length : (piece.length : Int) = max (exactStop pos code.length - exactStart pos) 0
  /-- It has the characters of the text, with a blank for each line feed, carriage return and tab. -/
  chars : ∀ i : Nat, i < piece.length → ∃ c, code[(exactStart pos).toNat + i]? = some c ∧
    piece[i]? = some (if c = '\n' ∨ c = '\r' ∨ c = '\t' then ' ' else c)
  /-- The caret stands behind as many blanks as there are characters from the start of the piece up
  to the position, at most 32. -/
  caret : caret = List.replicate (min pos 32) ' ' ++ ['^']
  /-- A character at the position stands over the caret … -/
  above : pos < code.length → piece[min pos 32]? = code[pos]?.map shown
  /-- … and if there is none the caret stands behind the end of the piece. -/
  behind : code.length ≤ pos → piece.length ≤ min pos 32

/-- At every word the lines of a report show what they have to, also where the sum for the end of the
piece wraps around. -/
theorem shows_place (hcode : code.length < UInt64.size / 2) (pos : UInt64) :
    Shows code pos.toNat (sourceLine code pos) (caretLine pos) := by
  have hstart : (exactStart pos.toNat).toNat = pos.toNat - 32 := by
    unfold exactStart
    omega
  have hlength := length_sourceLine hcode pos
  constructor
  case length =>
    unfold exactStop exactStart
    omega
  case chars =>
    intro i hi
    have hin : pos.toNat - 32 + i < code.length := by omega
    refine ⟨code[pos.toNat - 32 + i], by rw [hstart, List.getElem?_eq_getElem hin], ?_⟩
    rw [getElem?_sourceLine_of_lt hcode pos hi, List.getElem?_eq_getElem hin]
    rfl
  case caret => rw [caretLine_eq, Nat.sub_sub_eq_min]
  case above =>
    intro hpos
    have hunder : min pos.toNat 32 < (sourceLine code pos).length := by omega
    have hplace : pos.toNat - 32 + min pos.toNat 32 = pos.toNat := by omega
    rw [getElem?_sourceLine_of_lt hcode pos hunder, hplace]
  case behind =>
    intro hpos
    omega

/-- The report of a place is exact at every machine word, in the text or behind it, as long as it does
not break off. It is a headline that ends with the position, a piece of the text and a caret, as the
integers say. Where the sum for the end of the piece is a word the report does not break off, even if
its sums are looked at; where it is none, at the last 33 words, it breaks off behind the headline if
they are, and is the exact one if they wrap around. A text that fits into memory has less than half as
many characters as there are machine words. -/
theorem report_is_exact_or_breaks_off (terminal : Bool) (text : String) {code : List Char}
    (hcode : code.length < UInt64.size / 2) (pos : UInt64) :
    ∃ piece caret : List Char, Shows code pos.toNat piece caret ∧
      (atPosition terminal text code pos).toList =
        (headline terminal text).toList ++ " at instruction ".toList ++
          (toString pos.toNat).toList ++ '\n' ::
        ((' ' :: ' ' :: piece) ++ '\n' :: ((' ' :: ' ' :: caret) ++ '\n' :: [])) ∧
      (pos.toNat + 33 < UInt64.size →
        atPositionChecked terminal text code pos = (atPosition terminal text code pos, none)) ∧
      (UInt64.size ≤ pos.toNat + 33 → atPositionChecked terminal text code pos =
        (s!"{headline terminal text} at instruction {pos.toNat}\n", some .crash)) := by
  refine ⟨sourceLine code pos, caretLine pos, shows_place hcode pos,
    toList_atPosition terminal text code pos, fun hroom => ?_, fun hroom => ?_⟩
  · rw [atPositionChecked_eq, if_pos hroom]
  · rw [atPositionChecked_eq, if_neg (Nat.not_lt.mpr hroom)]

/-- The last word at which the sum is a word. It is far behind the text, so that the piece is empty. -/
theorem report_is_exact_or_breaks_off_at_the_limit :
    let code := "+\t-".toList
    let last : UInt64 := 18446744073709551582
    code.length < UInt64.size / 2 ∧ last.toNat + 33 < UInt64.size ∧
      UInt64.size ≤ (last + 1).toNat + 33 ∧
      (atPositionChecked false "Error" code last).1.toList =
        "Error at instruction 18446744073709551582\n  \n  ".toList ++
          List.replicate 32 ' ' ++ ['^', '\n'] ∧
      (atPositionChecked false "Error" code last).2 = none := by
  intro code last
  have hcode : code.length < UInt64.size / 2 := by decide
  have hroom : last.toNat + 33 < UInt64.size := by decide
  obtain ⟨piece, caret, shows, hreport, hchecked, -⟩ :=
    report_is_exact_or_breaks_off false "Error" hcode last
  have hpiece : piece = [] := by
    have hsize : code.length = 3 := rfl
    have hlast : last.toNat = 18446744073709551582 := rfl
    have hbehind := shows.length
    unfold exactStop exactStart at hbehind
    refine List.eq_nil_of_length_eq_zero ?_
    omega
  rw [hchecked hroom]
  refine ⟨hcode, hroom, by decide, ?_, rfl⟩
  rw [hreport, hpiece, shows.caret]
  decide

/-- At the greatest word of all a report whose sums are looked at breaks off behind its headline. -/
theorem report_breaks_off_at_the_last_word :
    let code := "+\t-".toList
    let last : UInt64 := 18446744073709551615
    code.length < UInt64.size / 2 ∧ atPositionChecked false "Error" code last =
      ("Error at instruction 18446744073709551615\n", some .crash) := by
  intro code last
  refine ⟨by decide, ?_⟩
  rw [atPositionChecked_eq]
  decide

end Report

/-! ## Faults of runs -/

namespace System

variable {memory index : Nat} {fresh : System} {acts : List Act} {c : Call}

/-- A fault with a place is about the operator that stands there. -/
theorem blames_of_result (h : System.new memory = .ok fresh)
    (hc : (fresh.after acts).calls[index]? = some c) {cause : Fault}
    (hr : (fresh.after acts).result? index = some (.failed cause)) (hplace : cause.ip?.isSome) :
    ∃ ip op, c.program.op? ip = some op ∧ cause.Blames ip op := by
  cases comesTo_of_result h hc hr with
  | fails fails =>
    obtain ⟨op, hop, hblames⟩ := fails.blames
    exact ⟨_, op, hop, hblames⟩
  | busy | noThread => cases hplace

/-- The caret points at the operator that failed. Let a call be made on an engine to carry out any
text, and let it fail for a move off the tape or a bracket without its partner. Then the report of the
fault for this text, where it is not shown on a terminal and the reporting program's name has no line
feed, is three lines: a headline that ends with the position; a piece of the text, indented by two
blanks, of at most 65 characters without line feeds, carriage returns and tabs; and a caret, indented
in the same way. In the column of the caret stands the operator that the fault is about, which is
also the character of the text at the position that the fault reports. A text that fits into memory
has less than half as many characters as there are machine words. -/
theorem caret_points_at_operator (h : System.new memory = .ok fresh) {source : String}
    (hsource : source.length < UInt64.size / 2) (hc : (fresh.after acts).calls[index]? = some c)
    (hprogram : c.program = .ofString source) {cause : Fault}
    (hr : (fresh.after acts).result? index = some (.failed cause))
    (hcause : (∃ ip pointer op, cause = .offTape ip pointer op) ∨
      ∃ ip bracket, cause = .unmatched ip bracket)
    {program : Option String} (hname : ∀ name, program = some name → '\n' ∉ name.toList) :
    ∃ (ip : Nat) (op : Op) (header piece : List Char) (column : Nat),
      cause.Blames ip op ∧ source.toList[ip]? = some op.toChar ∧
      Text.lines (Report.ofError false program source.toList cause).toList =
        [header ++ " at instruction ".toList ++ (toString ip).toList, ' ' :: ' ' :: piece,
          ' ' :: ' ' :: (List.replicate column ' ' ++ ['^']), []] ∧
      (∀ c ∈ piece, c ≠ '\n' ∧ c ≠ '\r' ∧ c ≠ '\t') ∧ piece.length ≤ 65 ∧
      piece[column]? = some op.toChar := by
  have hplace : cause.ip?.isSome := by
    rcases hcause with ⟨ip, pointer, op, rfl⟩ | ⟨ip, bracket, rfl⟩ <;> rfl
  obtain ⟨ip, op, hop, hblames⟩ := blames_of_result h hc hr hplace
  have hchar : source.toList[ip]? = some op.toChar := by
    rw [hprogram, Program.ofString, Program.op?_ofChars] at hop
    obtain ⟨c, hget, hofChar⟩ := Option.bind_eq_some_iff.mp hop
    rw [hget, Op.ofChar?_eq_some_iff.mp hofChar]
  have hip : ip < source.toList.length := (List.getElem?_eq_some_iff.mp hchar).1
  have hcode : source.toList.length < UInt64.size / 2 := by rwa [String.length_toList]
  refine ⟨ip, op, Report.said program cause, Report.sourceLine source.toList (UInt64.ofNat ip),
    ip - (ip - 32), hblames, hchar, Report.lines_ofError hblames hname hip hcode,
    fun c hmem => Report.ne_of_mem_sourceLine hmem, Report.length_sourceLine_le hip hcode, ?_⟩
  rw [Report.getElem?_sourceLine hip hcode, hchar]
  exact congrArg some (Report.shown_toChar op)

/-- A `]` without its `[`, behind a character of two bytes and a line feed. -/
theorem caret_points_at_operator_of_stray :
    let source := "+é\n]"
    let fresh : System := ⟨⟨1, .empty, false, false⟩, #[]⟩
    let acts : List Act := .call .spawn (.ofString source) :: List.replicate 12 (.advance 0)
    System.new 1 = .ok fresh ∧
      (fresh.after acts).result? 0 = some (.failed (.unmatched 3 .closing)) ∧
      ∃ header piece column,
        Text.lines (Report.ofError false (some "jbf") source.toList
            (.unmatched 3 .closing)).toList =
          [header ++ " at instruction ".toList ++ (toString 3).toList, ' ' :: ' ' :: piece,
            ' ' :: ' ' :: (List.replicate column ' ' ++ ['^']), []] ∧
        piece[column]? = some ']' := by
  intro source fresh acts
  have hnew : System.new 1 = .ok fresh := rfl
  have hr : (fresh.after acts).result? 0 = some (.failed (.unmatched 3 .closing)) := by decide
  have hc : (fresh.after acts).calls[0]? =
      some ⟨.spawn, .ofString source, .returned (.failed (.unmatched 3 .closing))⟩ := by decide
  have hname : ∀ name, some "jbf" = some name → '\n' ∉ name.toList := by
    rintro name ⟨⟩
    decide
  obtain ⟨ip, op, header, piece, column, hblames, -, hlines, -, -, hcolumn⟩ :=
    caret_points_at_operator hnew (show source.length < UInt64.size / 2 by decide) hc rfl hr
      (.inr ⟨_, _, rfl⟩) hname
  cases hblames
  exact ⟨hnew, hr, header, piece, column, hlines, hcolumn⟩

end System

end Brainfuck
