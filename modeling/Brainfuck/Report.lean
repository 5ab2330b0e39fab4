import Brainfuck.Fault

/-!
# Error reports

A report tells a person what went wrong and, when that has a place in the program, shows the place:
a piece of the source around it and a caret underneath. The piece reaches `reach` characters to both
sides; line ends and tabs are shown as blanks, so that everything stands on one line and the caret
stands under its character. Positions are machine words, and the end of the piece is a sum of words,
which wraps around at the last positions of all; `Brainfuck.Report.Checked` looks at that sum.
-/

namespace Brainfuck.Report

/-- How far the shown piece of the source reaches to both sides. -/
def reach : UInt64 :=
  32

/-- A character as it is shown. -/
def shown (c : Char) : Char :=
  if c = '\n' ∨ c = '\r' ∨ c = '\t' then ' ' else c

/-- Where the shown piece starts. -/
def windowStart (pos : UInt64) : UInt64 :=
  if pos < reach then 0 else pos - reach

/-- Where the shown piece of a source with `total` characters ends. -/
def windowStop (pos : UInt64) (total : Nat) : Nat :=
  min (pos + reach + 1).toNat total

/-- The shown piece of the source. -/
def sourceLine (code : List Char) (pos : UInt64) : List Char :=
  let start := (windowStart pos).toNat
  ((code.drop start).take (windowStop pos code.length - start)).map shown

/-- The caret under the character at `pos`. -/
def caretLine (pos : UInt64) : List Char :=
  List.replicate (pos - windowStart pos).toNat ' ' ++ ['^']

/-- A headline; a terminal shows it in bold red. -/
def headline (terminal : Bool) (text : String) : String :=
  if terminal then s!"\x1b[1;31m{text}\x1b[0m" else text

/-- A report with a place: the headline, the source and the caret. -/
def atPosition (terminal : Bool) (text : String) (code : List Char) (pos : UInt64) : String :=
  s!"{headline terminal text} at instruction {pos.toNat}\n" ++
    "  " ++ String.ofList (sourceLine code pos) ++ "\n" ++
    "  " ++ String.ofList (caretLine pos) ++ "\n"

/-- What went wrong, for a person; the place is reported apart. -/
def describe : Fault → String
  | .offTape _ pointer op =>
    s!"Runtime error: pointer out of bounds (ptr={pointer}, op={op})"
  | .unmatched _ kind => s!"Runtime error: unmatched bracket {kind.quoted}"
  | e => s!"Error: {e.message}"

/-- The report of a fault, with the name of the program that reports it. -/
def ofError (terminal : Bool) (program : Option String) (code : List Char) (e : Fault) :
    String :=
  let text := match program with
    | some name => s!"{name}: {describe e}"
    | none => describe e
  match e.ip? with
  | some ip => atPosition terminal text code (UInt64.ofNat ip)
  | none => headline terminal text ++ "\n"

end Brainfuck.Report
