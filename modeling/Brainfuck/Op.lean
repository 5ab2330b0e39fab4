/-!
# Operators

The eight operators of the language and how they are written. `ofChar?` reads an operator and
`toChar` writes it, and the two are inverse to each other: a character spells an operator exactly
when it is that operator's own character (`ofChar?_eq_some_iff`). Every other character is a
comment.
-/

namespace Brainfuck

/-- An operator of the language. -/
inductive Op where
  /-- `>` moves the pointer one cell to the right. -/
  | right
  /-- `<` moves the pointer one cell to the left. -/
  | left
  /-- `+` adds one to the current cell. -/
  | increment
  /-- `-` takes one from the current cell. -/
  | decrement
  /-- `.` prints the current cell. -/
  | print
  /-- `,` reads a byte into the current cell. -/
  | read
  /-- `[` skips the loop when the current cell is zero. -/
  | openLoop
  /-- `]` goes round the loop again when the current cell is not zero. -/
  | closeLoop
  deriving DecidableEq

namespace Op

/-- The operator a character spells, if it spells one. -/
def ofChar? : Char → Option Op
  | '>' => some .right
  | '<' => some .left
  | '+' => some .increment
  | '-' => some .decrement
  | '.' => some .print
  | ',' => some .read
  | '[' => some .openLoop
  | ']' => some .closeLoop
  | _ => none

/-- The character that spells an operator. -/
def toChar : Op → Char
  | .right => '>'
  | .left => '<'
  | .increment => '+'
  | .decrement => '-'
  | .print => '.'
  | .read => ','
  | .openLoop => '['
  | .closeLoop => ']'

/-- An operator's name. -/
def name : Op → String
  | .right => "Right"
  | .left => "Left"
  | .increment => "Inc"
  | .decrement => "Dec"
  | .print => "Output"
  | .read => "Input"
  | .openLoop => "LoopStart"
  | .closeLoop => "LoopEnd"

@[simp] theorem ofChar?_toChar (op : Op) : ofChar? op.toChar = some op := by
  cases op <;> rfl

theorem ofChar?_eq_some_iff {c : Char} {op : Op} : ofChar? c = some op ↔ c = op.toChar := by
  constructor
  · intro h
    unfold ofChar? at h
    split at h <;> cases h <;> rfl
  · rintro rfl
    exact ofChar?_toChar op

/-- No two operators share a character. -/
theorem toChar_injective {a b : Op} (h : a.toChar = b.toChar) : a = b := by
  have hab : some a = some b := by rw [← ofChar?_toChar a, h, ofChar?_toChar b]
  exact Option.some.inj hab

end Op

end Brainfuck
