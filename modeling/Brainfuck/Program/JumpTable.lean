import Brainfuck.Program

/-!
# Jump tables

The partners of all brackets of a program, found in one pass from left to right: an opening bracket
is put on a stack, and a closing one is paired with the bracket on top of it. A closing bracket that
finds the stack empty has no partner, nor has one that is left on the stack at the end.
-/

namespace Brainfuck.Program

/-- The pairs of brackets that close from position `pos` on, where `stack` holds the positions of
the brackets that are open there, the innermost first. -/
def pairsFrom (pos : Nat) (stack : List Nat) : List (Option Op) → List (Nat × Nat)
  | [] => []
  | some .openLoop :: ops => pairsFrom (pos + 1) (pos :: stack) ops
  | some .closeLoop :: ops =>
    match stack with
    | [] => pairsFrom (pos + 1) [] ops
    | start :: stack => (start, pos) :: pairsFrom (pos + 1) stack ops
  | _ :: ops => pairsFrom (pos + 1) stack ops

/-- The pairs of brackets of a program, each with the opening position first. -/
def pairs (p : Program) : List (Nat × Nat) :=
  pairsFrom 0 [] p.ops.toList

/-- The partner of the opening bracket at a position. -/
def closeOf? (p : Program) (start : Nat) : Option Nat :=
  (p.pairs.find? (·.1 == start)).map (·.2)

/-- The partner of the closing bracket at a position. -/
def openOf? (p : Program) (close : Nat) : Option Nat :=
  (p.pairs.find? (·.2 == close)).map (·.1)

end Brainfuck.Program
