/-!
# Machine words

Counts, positions and whole numbers in stored data fit words of 64 bits.

* `Bits.words`: the number of 64-bit words.
* `Bits.positives`: the number of those without a sign bit.
-/

namespace Categorial.Bits

/-- The number of 64-bit words, `2^64`. -/
def words : Nat := 0x10000000000000000

/-- The number of 64-bit words whose sign bit is off, `2^63`. -/
def positives : Nat := 0x8000000000000000

end Categorial.Bits
