import Brainfuck.Text.Blank
import Brainfuck.Text.Letter

/-!
# Escapes in patterns

What a backslash in a regular expression can stand before, and the modes that decide what may be
written. There are no braces in the patterns that are read here, so there are no named properties
and no code points in braces either.
-/

namespace Brainfuck.Text.Pattern

/-- The modes that decide what may be written. -/
structure Modes where
  ignoreCase : Bool
  /-- The pattern is about characters and not about bytes. -/
  unicode : Bool
  /-- Blanks and comments are left out. -/
  verbose : Bool
  deriving DecidableEq

namespace Modes

/-- The modes at the start of a pattern. -/
def initial : Modes :=
  ⟨false, true, false⟩

/-- The cases of characters beyond ASCII would have to be known. -/
def foldsCharacters (m : Modes) : Bool :=
  m.ignoreCase && m.unicode

/-- Turns the mode of a letter on or off; `none` if there is no such mode. -/
def set? (m : Modes) (on : Bool) : Char → Option Modes
  | 'i' => some { m with ignoreCase := on }
  | 'u' => some { m with unicode := on }
  | 'x' => some { m with verbose := on }
  | 'm' | 's' | 'R' | 'U' => some m
  | _ => none

end Modes

/-- The text after the blanks and comments at its start. A comment goes from `#` to the end of the
line. -/
def dropComments (inComment : Bool) : List Char → List Char
  | [] => []
  | c :: cs =>
    if inComment then dropComments (c != '\n') cs
    else if c = '#' then dropComments true cs
    else if isBlank c then dropComments false cs
    else c :: cs

/-- The text from the next character on that counts. -/
def Modes.skip (m : Modes) (cs : List Char) : List Char :=
  if m.verbose then dropComments false cs else cs

/-- What a backslash and the characters after it stand for. -/
inductive Escape where
  /-- A character; `isByte` tells that it was given as a byte. -/
  | char (c : Char) (isByte : Bool)
  /-- Digits, blanks or word characters, or all others. -/
  | kind (negated : Bool)
  /-- A position between characters; `ofWord` tells that it is the end of a word or of none. -/
  | position (ofWord : Bool)
  deriving DecidableEq

/-- The value of a hexadecimal digit. -/
def hexDigit? (c : Char) : Option Nat :=
  if '0' ≤ c ∧ c ≤ '9' then some (c.toNat - '0'.toNat)
  else if 'a' ≤ c ∧ c ≤ 'f' then some (c.toNat - 'a'.toNat + 10)
  else if 'A' ≤ c ∧ c ≤ 'F' then some (c.toNat - 'A'.toNat + 10)
  else none

/-- Reads a number of hexadecimal digits that continue a value. -/
def hexFrom (m : Modes) (value : Nat) : (digits : Nat) → List Char → Option (Nat × List Char)
  | 0, cs => some (value, cs)
  | _ + 1, [] => none
  | digits + 1, c :: cs =>
    match hexDigit? c with
    | some d => hexFrom m (16 * value + d) digits (m.skip cs)
    | none => none

/-- Reads a code point of so many hexadecimal digits. -/
def codePoint (m : Modes) (digits : Nat) (cs : List Char) : Option (Escape × List Char) :=
  match hexFrom m 0 digits (m.skip cs) with
  | some (value, rest) =>
    if value.isValidChar then some (.char (Char.ofNat value) (digits == 2), rest) else none
  | none => none

/-- The character may be escaped and then stands for itself. -/
def isEscapable (c : Char) : Bool :=
  c.toNat < 0x80 && !c.isAlphanum && c != '<' && c != '>'

/-- Reads what follows a backslash. -/
def readEscape (m : Modes) : List Char → Option (Escape × List Char)
  | [] => none
  | 'x' :: cs => codePoint m 2 cs
  | 'u' :: cs => codePoint m 4 cs
  | 'U' :: cs => codePoint m 8 cs
  | 'a' :: cs => some (.char '\x07' false, cs)
  | 't' :: cs => some (.char '\t' false, cs)
  | 'n' :: cs => some (.char '\n' false, cs)
  | 'v' :: cs => some (.char '\x0b' false, cs)
  | 'f' :: cs => some (.char '\x0c' false, cs)
  | 'r' :: cs => some (.char '\r' false, cs)
  | 'A' :: cs | 'z' :: cs => some (.position false, cs)
  | 'b' :: cs | 'B' :: cs | '<' :: cs | '>' :: cs => some (.position true, cs)
  | 'd' :: cs | 's' :: cs | 'w' :: cs => some (.kind false, cs)
  | 'D' :: cs | 'S' :: cs | 'W' :: cs => some (.kind true, cs)
  | c :: cs => if isEscapable c then some (.char c false, cs) else none

/-- The kinds of characters beyond ASCII are not known, and what is about bytes must not go beyond
ASCII. -/
def kindIsKnown (m : Modes) (negated : Bool) : Bool :=
  !m.unicode && !negated

end Brainfuck.Text.Pattern
