import Brainfuck.Text.Blank

/-!
# Sections of a settings file

A settings file is read line by line, with the blanks at the ends of a line left out. A line from
`[` to `]` is the header of a section, a line that starts with `#` is a comment, and a line with an
equals sign assigns the text after it to the key before it. `assignments` lists what is assigned in
the sections of one name, in the order of the file; of several assignments to one key the last one
counts (`lookup`).
-/

namespace Brainfuck.Settings

/-- What a line of a settings file is. -/
inductive Line where
  | header (name : List Char)
  | assignment (key value : List Char)
  /-- Nothing, a comment, or a text that means nothing. -/
  | other
  deriving DecidableEq

/-- A value without its quotes, when it has one at both ends. -/
def unquote : List Char → List Char
  | '"' :: cs => if cs.getLast? = some '"' then cs.dropLast else '"' :: cs
  | cs => cs

/-- The line is from `[` to `]`. -/
def isHeader (line : List Char) : Bool :=
  line.head? == some '[' && line.getLast? == some ']'

/-- Reads a line without blanks at its ends. -/
def Line.ofTrimmed (line : List Char) : Line :=
  if line.head? = some '#' then .other
  else if isHeader line then .header (Text.trim line.tail.dropLast)
  else if line.contains '=' then
    .assignment (Text.trim (line.takeWhile (· != '=')))
      (unquote (Text.trim (line.dropWhile (· != '=')).tail))
  else .other

/-- Reads a line. -/
def Line.ofChars (line : List Char) : Line :=
  .ofTrimmed (Text.trim line)

/-- The keys and values that lines assign in the sections called `name`; `inside` tells whether the
first of them belongs to one. -/
def assignmentsFrom (name : List Char) (inside : Bool) : List Line → List (List Char × List Char)
  | [] => []
  | .header other :: rest => assignmentsFrom name (other == name) rest
  | .assignment key value :: rest =>
    if inside then (key, value) :: assignmentsFrom name inside rest
    else assignmentsFrom name inside rest
  | .other :: rest => assignmentsFrom name inside rest

/-- The keys and values that a text assigns in its sections called `name`. -/
def assignments (name content : List Char) : List (List Char × List Char) :=
  assignmentsFrom name false ((Text.lines content).map Line.ofChars)

/-- The value that was assigned to a key last. -/
def lookup (key : List Char) (entries : List (List Char × List Char)) : Option (List Char) :=
  (entries.reverse.find? (·.1 == key)).map (·.2)

end Brainfuck.Settings
