import Brainfuck.Text.Pattern.Set

/-!
# Patterns

Which texts are regular expressions. The tables of Unicode are not at hand, so what would need them
is refused: the kinds `\d`, `\s` and `\w`, the ends of words, and letters of either case, all unless
the pattern is about bytes, `(?-u)`. A pattern about bytes must not match bytes beyond ASCII.
Groups, repetitions and sets may be nested up to `nestLimit`. Braces have no place in a pattern.
-/

namespace Brainfuck.Text.Pattern

/-- How high a pattern may be as a tree. -/
def nestLimit : Nat :=
  250

/-- The parts of a pattern that stand side by side. -/
structure Branch where
  count : Nat
  /-- The height of the highest of them. -/
  height : Nat
  /-- The height of the last, if it can be repeated. -/
  last : Option Nat

namespace Branch

/-- No parts. -/
def empty : Branch :=
  ⟨0, 0, none⟩

/-- Adds a part that can be repeated. -/
def push (b : Branch) (height : Nat) : Branch :=
  ⟨b.count + 1, max b.height height, some height⟩

/-- Adds a change of modes, which cannot be repeated. -/
def pushModes (b : Branch) : Branch :=
  { b with count := b.count + 1, last := none }

/-- Repeats the last part. -/
def repeatLast (b : Branch) : Option Branch :=
  b.last.map fun height => ⟨b.count, max b.height (height + 1), some (height + 1)⟩

/-- The height of all parts together. -/
def total (b : Branch) : Nat :=
  if b.count ≤ 1 then b.height else b.height + 1

end Branch

/-- A group, or the whole pattern, up to a position. -/
structure Level where
  modes : Modes
  /-- The height of the alternatives before this one, if there are any. -/
  others : Option Nat
  branch : Branch

namespace Level

/-- A level of which nothing has been read. -/
def new (modes : Modes) : Level :=
  ⟨modes, none, .empty⟩

/-- Adds a part. -/
def push (l : Level) (height : Nat) : Level :=
  { l with branch := l.branch.push height }

/-- Begins the next alternative. -/
def alternate (l : Level) : Level :=
  ⟨l.modes, some (max (l.others.getD 0) l.branch.total), .empty⟩

/-- The height of all alternatives together. -/
def total (l : Level) : Nat :=
  match l.others with
  | some others => max others l.branch.total + 1
  | none => l.branch.total

end Level

/-- What follows the bracket of a group. -/
inductive Head where
  /-- A group of which the match is kept, perhaps under a name. -/
  | capture (name : Option (List Char))
  /-- A group with modes of its own. -/
  | plain (modes : Modes)
  /-- No group, but modes for what follows. -/
  | modes (modes : Modes)

/-- Reads the name of a group and the `>` after it. -/
def readName (name : List Char) : List Char → Option (List Char × List Char)
  | [] => none
  | c :: cs =>
    if c = '>' then if name.isEmpty then none else some (name.reverse, cs)
    else if c = '_' || isLetter c then readName (c :: name) cs
    else if name.isEmpty then none
    else if c = '.' || c = '[' || c = ']' || isLetterOrNumber c then readName (c :: name) cs
    else none

/-- Reads modes up to the colon or bracket after them. None may be named twice, and a hyphen, which
turns off the modes after it, must not be the last. -/
def readModes (m : Modes) (on : Bool) (seen : List Char) : List Char → Option (Head × List Char)
  | [] => none
  | c :: cs =>
    if c = ':' || c = ')' then
      if seen.head? = some '-' then none
      else if c = ':' then some (.plain m, cs)
      else if seen.isEmpty then none
      else some (.modes m, cs)
    else if seen.contains c then none
    else if c = '-' then readModes m false (c :: seen) cs
    else
      match m.set? on c with
      | some m => readModes m on (c :: seen) cs
      | none => none

/-- Reads the head of a group. Groups that look ahead or behind are refused. -/
def readHead (m : Modes) (cs : List Char) : Option (Head × List Char) :=
  let named (cs : List Char) :=
    (readName [] cs).map fun (name, rest) => (.capture (some name), rest)
  match m.skip cs with
  | '?' :: '=' :: _ | '?' :: '!' :: _ | '?' :: '<' :: '=' :: _ | '?' :: '<' :: '!' :: _ => none
  | '?' :: 'P' :: '<' :: rest => named rest
  | '?' :: '<' :: rest => named rest
  | '?' :: rest => readModes m true [] rest
  | rest => some (.capture none, rest)

/-- The escape may stand outside of sets. -/
def Escape.mayBePart (m : Modes) : Escape → Bool
  | .char c isByte => !m.foldsCharacters && (m.unicode || !isByte || c.toNat < 0x80)
  | .kind negated => kindIsKnown m negated
  | .position ofWord => !(ofWord && m.unicode)

/-- Reads on at the level `l`, which is inside of the levels in `outer`, where `names` are the names
of groups so far. The result is the height of the whole pattern. `fuel` is more than the length of
the text. -/
def readFrom : (fuel : Nat) → Level → List Level → List (List Char) → List Char → Option Nat
  | 0, _, _, _, _ => none
  | fuel + 1, l, outer, names, cs =>
    match l.modes.skip cs with
    | [] => if outer.isEmpty then some l.total else none
    | '(' :: rest =>
      match readHead l.modes rest with
      | some (.capture none, rest) => readFrom fuel (.new l.modes) (l :: outer) names rest
      | some (.capture (some name), rest) =>
        if names.contains name then none
        else readFrom fuel (.new l.modes) (l :: outer) (name :: names) rest
      | some (.plain modes, rest) => readFrom fuel (.new modes) (l :: outer) names rest
      | some (.modes modes, rest) =>
        readFrom fuel ⟨modes, l.others, l.branch.pushModes⟩ outer names rest
      | none => none
    | ')' :: rest =>
      match outer with
      | parent :: outer => readFrom fuel (parent.push (l.total + 1)) outer names rest
      | [] => none
    | '|' :: rest => readFrom fuel l.alternate outer names rest
    | '[' :: rest =>
      match readSet l.modes rest with
      | some (height, rest) => readFrom fuel (l.push height) outer names rest
      | none => none
    | '{' :: _ => none
    | '\\' :: rest =>
      match readEscape l.modes rest with
      | some (escape, rest) =>
        if escape.mayBePart l.modes then readFrom fuel (l.push 0) outer names rest else none
      | none => none
    | '.' :: rest => if l.modes.unicode then readFrom fuel (l.push 0) outer names rest else none
    | c :: rest =>
      if c = '?' || c = '*' || c = '+' then
        match l.branch.repeatLast with
        | some branch =>
          -- A question mark after the sign of a repetition belongs to it.
          let rest := if rest.head? = some '?' then rest.tail else rest
          readFrom fuel { l with branch } outer names rest
        | none => none
      else if c = '^' || c = '$' || !l.modes.foldsCharacters then
        readFrom fuel (l.push 0) outer names rest
      else none

/-- The text is a pattern. -/
def isPattern (cs : List Char) : Bool :=
  (readFrom (cs.length + 1) (.new .initial) [] [] cs).any (· ≤ nestLimit)

end Brainfuck.Text.Pattern
