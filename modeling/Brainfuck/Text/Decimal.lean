/-!
# Decimal numerals

Natural numbers are written with the ten ASCII digits, with any number of zeros in front and with an
optional plus sign. `word?` reads those below 2 ^ 64 and refuses all others, so that no number is
ever taken for another one. `isReal` tells whether a text is the numeral of a real number.
-/

namespace Brainfuck.Decimal

/-- The value of a digit. -/
def digit? (c : Char) : Option Nat :=
  if '0' ≤ c ∧ c ≤ '9' then some (c.toNat - '0'.toNat) else none

/-- The value of a sequence of digits that continues a number. -/
def valueFrom? (n : Nat) : List Char → Option Nat
  | [] => some n
  | c :: cs =>
    match digit? c with
    | some d => valueFrom? (10 * n + d) cs
    | none => none

/-- The value of a sequence of one or more digits. -/
def value? : List Char → Option Nat
  | [] => none
  | c :: cs => valueFrom? 0 (c :: cs)

/-- The numeral without its plus sign. -/
def unsigned : List Char → List Char
  | '+' :: cs => cs
  | cs => cs

/-- The number that a numeral stands for, if that fits in a 64-bit word. -/
def word? (cs : List Char) : Option Nat :=
  match value? (unsigned cs) with
  | some n => if n < UInt64.size then some n else none
  | none => none

/-- The character is a digit. -/
def isDigit (c : Char) : Bool :=
  (digit? c).isSome

/-- The text is one or more digits, perhaps with a sign. -/
def isInteger (cs : List Char) : Bool :=
  let digits := match cs with
    | '+' :: cs => cs
    | '-' :: cs => cs
    | cs => cs
  !digits.isEmpty && digits.all isDigit

/-- The text is an exponent, or nothing. -/
def isExponent : List Char → Bool
  | [] => true
  | c :: cs => (c = 'e' || c = 'E') && isInteger cs

/-- The text is a number without a sign: digits, perhaps with a point before, among or behind them,
and perhaps an exponent. -/
def isMagnitude (cs : List Char) : Bool :=
  let whole := cs.takeWhile isDigit
  match cs.dropWhile isDigit with
  | '.' :: rest =>
    !(whole.isEmpty && (rest.takeWhile isDigit).isEmpty) && isExponent (rest.dropWhile isDigit)
  | rest => !whole.isEmpty && isExponent rest

/-- The names of what is no finite number. -/
def unboundedNames : List String :=
  ["inf", "infinity", "nan"]

/-- The text is the numeral of a real number, infinity, or of no number at all, perhaps with a
sign. -/
def isReal (cs : List Char) : Bool :=
  let unsigned := match cs with
    | '+' :: cs => cs
    | '-' :: cs => cs
    | cs => cs
  isMagnitude unsigned || unboundedNames.contains (String.ofList (unsigned.map Char.toLower))

end Brainfuck.Decimal
