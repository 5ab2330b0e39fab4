import Brainfuck.Log
import Brainfuck.Text.Bytes
import Brainfuck.Text.Decimal
import Brainfuck.Text.Pattern.Basic

/-!
# Log filters

A log filter is a list of directives separated by commas. A directive is a level, a target, or
`TARGET=LEVEL`; a target alone lets everything through. A target is meant as the beginning of the
target of a record. A directive may also name a span or a field in brackets,
`TARGET[SPAN{FIELD=VALUE}]=LEVEL`; there are no spans here, so one that names a span or the value
of a field fits nothing, and one that names a field fits the records with that field.

Of the directives that fit a record the one with the longest target decides, then one with a field,
then the one whose field comes last in the order of texts, and of several that are alike the last.

The parts of a directive are found in its text without the blanks at both ends, but they are cut out
of the whole text at the same distances from its start. Without blanks at the start that only leaves
the blanks at the end with the last part; with them every part but a mere target is cut too early.
-/

namespace Brainfuck.CommandLine

open Text (byteLength cut fromByte upToByte)

/-- A directive of a log filter. -/
structure Directive where
  /-- How the target of a record has to begin. -/
  target : Option (List Char)
  /-- The field that a record has to have. -/
  field : Option String
  /-- Whether there may be records that fit. -/
  canFit : Bool
  /-- The most that is let through; nothing at all without one. -/
  level : Option LogLevel

/-- The levels by number. -/
def levelOfNumber? : Nat → Option (Option LogLevel)
  | 0 => some none
  | 1 => some (some .error)
  | 2 => some (some .warn)
  | 3 => some (some .info)
  | 4 => some (some .debug)
  | 5 => some (some .trace)
  | _ => none

/-- The levels by name. -/
def levelOfName? (name : List Char) : Option (Option LogLevel) :=
  match String.ofList (name.map Char.toLower) with
  | "off" => some none
  | "error" => some (some .error)
  | "warn" => some (some .warn)
  | "info" => some (some .info)
  | "debug" => some (some .debug)
  | "trace" => some (some .trace)
  | _ => none

/-- Reads a level: a number from 0 to 5, or a name in whatever case. -/
def level? (cs : List Char) : Option (Option LogLevel) :=
  ((Decimal.word? cs).bind levelOfNumber?).or (levelOfName? cs)

/-- A field as a directive names it. -/
structure FieldFilter where
  /-- The name of the field. -/
  name : List Char
  /-- A value is asked for as well. -/
  hasValue : Bool

/-- Reads `NAME` or `NAME=VALUE`. A value is a number or a pattern, and ends at the next equals
sign. -/
def FieldFilter.parse (cs : List Char) : Option FieldFilter :=
  let name := cs.takeWhile (· != '=')
  match cs.dropWhile (· != '=') with
  | [] => some ⟨name, false⟩
  | _ :: rest =>
    let value := rest.takeWhile (· != '=')
    if Decimal.isReal value || Text.Pattern.isPattern value then some ⟨name, true⟩ else none

namespace Directive

/-- A directive may start with this character. -/
def isStart (c : Char) : Bool :=
  c == '-' || c == ':' || c == '_' || c == '[' || Text.isLetterOrNumber c

/-- Reads the end of the directive `cs`, of which `rest` is left at the byte `start`: nothing, or an
equals sign and perhaps a level. -/
def readLevel (cs : List Char) (d : Directive) (start : Nat) (rest : List Char) :
    Option Directive :=
  match rest with
  | [] => some d
  | '=' :: _ =>
    match fromByte (start + 1) cs with
    | some [] => some d
    | some text => (level? text).map fun level => { d with level }
    | none => none
  | _ => none

/-- Reads a field and the bracket after it in the directive `cs`, of which `rest` is left at the
byte `start`, behind the opening brace. -/
def readField (cs : List Char) (d : Directive) (start : Nat) (rest : List Char) :
    Option Directive :=
  let text := rest.takeWhile (· != '\x7d')
  let stop := start + byteLength text
  match rest.dropWhile (· != '\x7d') with
  | _ :: ']' :: rest =>
    if text.isEmpty then none
    else
      match (cut cs start stop).bind FieldFilter.parse with
      | some filter =>
        let d := { d with
          field := some (String.ofList filter.name)
          canFit := d.canFit && !filter.hasValue }
        readLevel cs d (stop + 2) rest
      | none => none
  | _ => none

/-- Reads a span and perhaps a field in the directive `cs`, of which `rest` is left at the byte
`start`, behind the opening bracket. -/
def readSpan (cs : List Char) (d : Directive) (start : Nat) (rest : List Char) :
    Option Directive :=
  let name := rest.takeWhile fun c => c != ']' && c != '\x7b'
  let stop := start + byteLength name
  match cut cs start stop, rest.dropWhile fun c => c != ']' && c != '\x7b' with
  | some _, ']' :: rest => readLevel cs { d with canFit := false } (stop + 1) rest
  | some _, _ :: rest => readField cs { d with canFit := name.isEmpty } (stop + 1) rest
  | _, _ => none

/-- Reads a directive. -/
def parse (cs : List Char) : Option Directive :=
  let body := Text.trim cs
  if !body.head?.any isStart then none
  else
    let word := body.takeWhile fun c => c != '=' && c != '['
    let stop := byteLength word
    let all : Directive := ⟨none, none, true, some .trace⟩
    match body.dropWhile fun c => c != '=' && c != '[' with
    | [] =>
      match level? cs with
      | some level => some { all with level }
      | none => some { all with target := some cs }
    | '[' :: rest =>
      if word.isEmpty then readSpan cs all 1 rest
      else
        match upToByte stop cs with
        | some target => readSpan cs { all with target := some target } (stop + 1) rest
        | none => none
    | rest =>
      match upToByte stop cs with
      | some target => readLevel cs { all with target := some target } stop rest
      | none => none

/-- The directive is about the record. -/
def fits (d : Directive) (r : LogRecord) : Bool :=
  d.canFit && (d.target.all fun t => t.isPrefixOf r.target.toList) && d.field.all r.hasField

/-- A directive decides instead of an earlier one that fits as well. -/
def outdoes (d earlier : Directive) : Bool :=
  let length (d : Directive) := match d.target with
    | some target => target.length + 1
    | none => 0
  length earlier < length d ||
    length earlier == length d && match earlier.field, d.field with
      | none, _ => true
      | some _, none => false
      | some a, some b => !decide (b < a)

/-- The directive lets the record through. -/
def lets (d : Directive) (r : LogRecord) : Bool :=
  d.level.any fun level => r.level.rank ≤ level.rank

end Directive

/-- A log filter. -/
structure LogFilter where
  /-- The directives in the order in which they were given. -/
  directives : List Directive

namespace LogFilter

/-- The filter that lets through the records of one level and those above it. -/
def ofLevel (level : LogLevel) : LogFilter :=
  ⟨[⟨none, none, true, some level⟩]⟩

/-- The pieces of a text between its commas. -/
def pieces : List Char → List (List Char)
  | [] => [[]]
  | c :: cs =>
    match pieces cs with
    | piece :: rest => if c = ',' then [] :: piece :: rest else (c :: piece) :: rest
    | [] => [[c]]

/-- Reads a filter. A filter without directives lets errors through. -/
def parse (text : List Char) : Option LogFilter :=
  match ((pieces text).filter (!·.isEmpty)).mapM Directive.parse with
  | some [] => some (ofLevel .error)
  | some directives => some ⟨directives⟩
  | none => none

/-- The filter that the environment asks for; without a valid one, warnings are let through. -/
def ofVariable (value : Option String) : LogFilter :=
  (value.bind fun text => parse text.toList).getD (ofLevel .warn)

/-- The filter lets the record through. -/
def lets (f : LogFilter) (r : LogRecord) : Bool :=
  let deciding := (f.directives.filter (·.fits r)).foldl
    (fun best d => match best with
      | some b => if d.outdoes b then some d else some b
      | none => some d)
    (none : Option Directive)
  deciding.any (·.lets r)

/-- The line for a record: a time stamp, the level at a width of five, and the text. -/
def line (stamp : String) (r : LogRecord) : String :=
  let level := r.level.name
  let padding := String.ofList (List.replicate (5 - level.length) ' ')
  s!"{stamp} {padding}{level} {r.text}\n"

end LogFilter

end Brainfuck.CommandLine
