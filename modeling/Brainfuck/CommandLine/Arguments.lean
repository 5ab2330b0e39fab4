import Brainfuck.Text.Decimal

/-!
# Arguments

`jbf [-h|--help] [run ARG...]`. The arguments of `run` are options up to the first part of the
program's text; that part and everything after it is text, whatever it looks like. Before it, `--`
ends the options. An argument that only looks like an option is text already: an unknown long name,
or a `-` with a letter among the following that names no option. A missing value, a number that is
none, and an option given twice are refused.
-/

namespace Brainfuck.CommandLine

/-- What the arguments of `run` ask for. -/
structure RunRequest where
  /-- The file that holds the program. -/
  file : Option String
  /-- The number of cells. -/
  memory : Option Nat
  /-- The time the run may take, in milliseconds. -/
  timeout : Option Nat
  /-- The use of `run` is to be shown. -/
  help : Bool
  /-- The parts of the program's text. -/
  code : List String
  deriving DecidableEq

/-- What the arguments of the program ask for. -/
structure Arguments where
  /-- The use of the program is to be shown. -/
  help : Bool
  /-- The command `run`, if it was given. -/
  run : Option RunRequest
  deriving DecidableEq

/-- An option of `run`. -/
inductive OptionName where
  | file
  | memory
  | timeout
  | help
  deriving DecidableEq

namespace OptionName

/-- The option with a long name. -/
def ofLong? : String → Option OptionName
  | "file" => some .file
  | "memory" => some .memory
  | "timeout" => some .timeout
  | "help" => some .help
  | _ => none

/-- The option with a letter. -/
def ofLetter? : Char → Option OptionName
  | 'f' => some .file
  | 'm' => some .memory
  | 'h' => some .help
  | _ => none

/-- The option comes with a value. -/
def takesValue : OptionName → Bool
  | .help => false
  | _ => true

end OptionName

/-- What an argument before the first part of the text looks like. -/
inductive Shape where
  /-- `--`. -/
  | escape
  /-- A long option, perhaps with a value after an equals sign. -/
  | long (name : OptionName) (value : Option String)
  /-- A `-` and letters of options. -/
  | letters (cluster : List Char)
  /-- Anything else. -/
  | text
  deriving DecidableEq

/-- The shape of an argument. -/
def Shape.ofArgument (arg : String) : Shape :=
  match arg.toList with
  | ['-', '-'] => .escape
  | '-' :: '-' :: rest =>
    let name := rest.takeWhile (· != '=')
    match OptionName.ofLong? (String.ofList name) with
    | some option =>
      .long option
        (if rest.contains '=' then some (String.ofList (rest.drop (name.length + 1))) else none)
    | none => .text
  | '-' :: c :: rest =>
    if (c :: rest).all fun c => (OptionName.ofLetter? c).isSome then .letters (c :: rest) else .text
  | _ => .text

namespace RunRequest

/-- Nothing was asked for. -/
def none : RunRequest :=
  ⟨.none, .none, .none, false, []⟩

/-- Sets an option that takes a value, once. -/
def setValue (a : RunRequest) (value : String) : OptionName → Option RunRequest
  | .file => if a.file.isSome then .none else some { a with file := some value }
  | .memory =>
    if a.memory.isSome then .none
    else (Decimal.word? value.toList).map fun n => { a with memory := some n }
  | .timeout =>
    if a.timeout.isSome then .none
    else (Decimal.word? value.toList).map fun n => { a with timeout := some n }
  | .help => .none

/-- Asks for help, once. -/
def setHelp (a : RunRequest) : Option RunRequest :=
  if a.help then .none else some { a with help := true }

/-- Reads letters of options. The first one that takes a value has the rest of the letters as its
value; when nothing is left, it is returned, since its value is the next argument. -/
def setLetters (a : RunRequest) : List Char → Option (RunRequest × Option OptionName)
  | [] => some (a, .none)
  | c :: rest =>
    match OptionName.ofLetter? c with
    | .none => .none
    | some .help => a.setHelp.bind (setLetters · rest)
    | some option =>
      if rest.isEmpty then some (a, some option)
      else (a.setValue (String.ofList rest) option).map (·, .none)

/-- Reads the arguments of `run` after those that led to `a`; `pending` is an option that still
lacks its value. -/
def parseFrom (a : RunRequest) (pending : Option OptionName) : List String → Option RunRequest
  | [] => if pending.isSome then .none else some a
  | arg :: rest =>
    match Shape.ofArgument arg, pending with
    | .text, some option => (a.setValue arg option).bind (parseFrom · .none rest)
    | .text, .none => some { a with code := arg :: rest }
    | _, some _ => .none
    | .escape, .none => some { a with code := rest }
    | .long option value, .none =>
      if option.takesValue then
        match value with
        | some value => (a.setValue value option).bind (parseFrom · .none rest)
        | .none => parseFrom a (some option) rest
      else if value.isSome then .none
      else a.setHelp.bind (parseFrom · .none rest)
    | .letters cluster, .none =>
      (a.setLetters cluster).bind fun (a, pending) => parseFrom a pending rest

/-- Reads the arguments of `run`. -/
def parse (args : List String) : Option RunRequest :=
  parseFrom none .none args

end RunRequest

/-- Reads the arguments of the program; `help` tells whether help was asked for before them. -/
def Arguments.parseFrom (help : Bool) : List String → Option Arguments
  | [] => some ⟨help, none⟩
  | arg :: rest =>
    match arg with
    | "-h" | "--help" => if help then none else parseFrom true rest
    | "--" => if rest.isEmpty then some ⟨help, none⟩ else none
    | "run" => (RunRequest.parse rest).map fun run => ⟨help, some run⟩
    | _ => none

/-- Reads the arguments of the program. -/
def Arguments.parse (args : List String) : Option Arguments :=
  parseFrom false args

end Brainfuck.CommandLine
