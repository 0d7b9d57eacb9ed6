import Categorial.Bits

/-!
# Counting with a cap

Derivations are counted up to the greatest 64-bit word; a count that would exceed it stays there.

* `Count.cap`, `Count.add`, `Count.mul`.
-/

namespace Categorial.Count

/-- The greatest count. -/
def cap : Nat := Bits.words - 1

/-- The sum of two counts, at most `cap`. -/
def add (m n : Nat) : Nat := min cap (m + n)

/-- The product of two counts, at most `cap`. -/
def mul (m n : Nat) : Nat := min cap (m * n)

end Categorial.Count
