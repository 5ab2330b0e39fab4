import Brainfuck.Text.Pattern.Escape

/-!
# Sets of characters in patterns

A set stands in brackets: characters, ranges, named sets such as `[:alpha:]`, other sets, and three
operators between such lists. Reading a set gives its height as a tree, since patterns may not be
nested too deeply. The sets that are open at a position are kept on a stack.
-/

namespace Brainfuck.Text.Pattern

/-- A set that is open. -/
structure OpenSet where
  /-- It holds all other characters. -/
  negated : Bool
  /-- Only its bracket and hyphens have been read. -/
  isNew : Bool
  /-- The height of what stands before the last operator. -/
  left : Option Nat
  /-- The number of items since then. -/
  count : Nat
  /-- The height of the highest of them. -/
  height : Nat
  /-- One of them has a character. -/
  filled : Bool

namespace OpenSet

/-- A set whose bracket has been read. -/
def new (negated : Bool) : OpenSet :=
  ⟨negated, true, none, 0, 0, false⟩

/-- Adds an item. -/
def push (s : OpenSet) (height : Nat) (filled : Bool) : OpenSet :=
  { s with count := s.count + 1, height := max s.height height, filled := s.filled || filled }

/-- The height of what is in the brackets. -/
def total (s : OpenSet) : Nat :=
  let items := if s.count ≤ 1 then s.height else s.height + 1
  match s.left with
  | some left => max left items + 1
  | none => items

/-- What was read so far becomes the left side of an operator. -/
def operate (m : Modes) (s : OpenSet) : Option OpenSet :=
  if m.foldsCharacters && s.filled then none
  else some ⟨s.negated, false, some s.total, 0, 0, false⟩

/-- A set with both its brackets is allowed: it does not need unknown cases, and it has no bytes
beyond ASCII. -/
def isAllowed (m : Modes) (s : OpenSet) : Bool :=
  !(m.foldsCharacters && s.filled) && !(!m.unicode && s.negated)

end OpenSet

/-- The names of sets. -/
def setNames : List String :=
  ["alnum", "alpha", "ascii", "blank", "cntrl", "digit", "graph", "lower", "print", "punct",
    "space", "upper", "word", "xdigit"]

/-- Reads what follows the bracket of a named set: whether it is negated, and the rest. -/
def readNamed : List Char → Option (Bool × List Char)
  | ':' :: cs =>
    let (negated, cs) := match cs with
      | '^' :: rest => (true, rest)
      | cs => (false, cs)
    match cs.dropWhile (· != ':') with
    | ':' :: ']' :: rest =>
      if setNames.contains (String.ofList (cs.takeWhile (· != ':'))) then some (negated, rest)
      else none
    | _ => none
  | _ => none

/-- A named set is allowed. -/
def namedIsAllowed (m : Modes) (negated : Bool) : Bool :=
  !m.foldsCharacters && !(!m.unicode && negated)

/-- Reads what follows the bracket of a set. -/
def openSet (m : Modes) (cs : List Char) : OpenSet × List Char :=
  match m.skip cs with
  | '^' :: rest => (.new true, rest)
  | rest => (.new false, rest)

/-- Reads an item of a set: a character, perhaps escaped. -/
def readItem (m : Modes) : List Char → Option (Escape × List Char)
  | [] => none
  | '\\' :: cs => readEscape m cs
  | c :: cs => some (.char c false, cs)

/-- The item may stand in a set. -/
def Escape.mayBeItem (m : Modes) : Escape → Bool
  | .char c _ => m.unicode || c.toNat < 0x80
  | .kind negated => kindIsKnown m negated
  | .position _ => false

/-- What follows the hyphen of a range; a hyphen before a bracket or another hyphen makes no
range. -/
def rangeEnd? (m : Modes) (cs : List Char) : Option (List Char) :=
  match m.skip cs with
  | '-' :: rest =>
    match m.skip rest with
    | ']' :: _ | '-' :: _ => none
    | rest => some rest
  | _ => none

/-- Reads an item or a range. -/
def readRange (m : Modes) (s : OpenSet) (cs : List Char) : Option (OpenSet × List Char) :=
  match readItem m cs with
  | none => none
  | some (first, rest) =>
    match rangeEnd? m rest with
    | none => if first.mayBeItem m then some (s.push 0 true, rest) else none
    | some rest =>
      match first, readItem m rest with
      | .char low isByte, some (.char high isByte', rest) =>
        if low ≤ high && Escape.mayBeItem m (.char low isByte) &&
            Escape.mayBeItem m (.char high isByte') then
          some (s.push 0 true, rest)
        else none
      | _, _ => none

/-- Reads on from inside the set `s`, which is inside of the sets in `outer`. The result is the
height of the outermost set, and what follows it. `fuel` is at least the length of the text. -/
def readSetFrom (m : Modes) : (fuel : Nat) → OpenSet → List OpenSet → List Char →
    Option (Nat × List Char)
  | 0, _, _, _ => none
  | fuel + 1, s, outer, cs =>
    let close (rest : List Char) :=
      if s.isAllowed m then
        match outer with
        | [] => some (s.total + 1, rest)
        | parent :: outer =>
          readSetFrom m fuel (parent.push (s.total + 1) (s.filled || s.negated)) outer rest
      else none
    let operate (rest : List Char) :=
      match s.operate m with
      | some s => readSetFrom m fuel s outer rest
      | none => none
    let item (cs : List Char) :=
      match readRange m { s with isNew := false } cs with
      | some (s, rest) => readSetFrom m fuel s outer rest
      | none => none
    match m.skip cs, s.isNew with
    | [], _ => none
    | '-' :: rest, true => readSetFrom m fuel (s.push 0 true) outer rest
    | ']' :: rest, true =>
      if s.count = 0 then readSetFrom m fuel { s.push 0 true with isNew := false } outer rest
      else close rest
    | ']' :: rest, false => close rest
    | '[' :: rest, _ =>
      match readNamed rest with
      | some (negated, rest) =>
        if namedIsAllowed m negated then
          readSetFrom m fuel { s.push 0 true with isNew := false } outer rest
        else none
      | none =>
        let (inner, rest) := openSet m rest
        readSetFrom m fuel inner ({ s with isNew := false } :: outer) rest
    | '&' :: '&' :: rest, _ => operate rest
    | '-' :: '-' :: rest, _ => operate rest
    | '~' :: '~' :: rest, _ => operate rest
    | cs, _ => item cs

/-- Reads what follows the bracket of an outermost set. -/
def readSet (m : Modes) (cs : List Char) : Option (Nat × List Char) :=
  let (s, rest) := openSet m cs
  readSetFrom m (rest.length + 1) s [] rest

end Brainfuck.Text.Pattern
