import Brainfuck.Program

/-!
# Comments

A source text without its comments, and where in the text its operators stood. The two lists go
together: operator number `k` of the text stands at position number `k` (`length_positions`).
-/

namespace Brainfuck.Program

/-- The character is an operator. -/
def isOperator (c : Char) : Bool :=
  (Op.ofChar? c).isSome

/-- The operators of a text. -/
def strip (source : List Char) : List Char :=
  source.filter isOperator

/-- The positions of the operators of a text that starts at position `pos`. -/
def positionsFrom (pos : Nat) : List Char → List Nat
  | [] => []
  | c :: cs =>
    if isOperator c then pos :: positionsFrom (pos + 1) cs else positionsFrom (pos + 1) cs

/-- The positions of the operators of a text. -/
def positions (source : List Char) : List Nat :=
  positionsFrom 0 source

theorem length_positionsFrom (source : List Char) :
    ∀ pos, (positionsFrom pos source).length = (strip source).length := by
  induction source with
  | nil => intro pos; rfl
  | cons c cs ih =>
    intro pos
    by_cases hc : isOperator c = true
    · simp [positionsFrom, strip, hc, ih (pos + 1)]
    · simp [positionsFrom, strip, hc, ih (pos + 1)]

theorem length_positions (source : List Char) :
    (positions source).length = (strip source).length :=
  length_positionsFrom source 0

end Brainfuck.Program
