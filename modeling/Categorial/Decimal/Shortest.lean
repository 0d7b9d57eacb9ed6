/-!
# Shortest decimals

A finite binary number is written with the fewest decimal digits that read back to it: it stands for
all numbers that are rounded to it, and the first decimal grid with a point in that interval gives the
digits. Of two points the nearer one is taken, and the upper one if both are equally near.

* `Binary`: a positive number `m · 2^q` and its neighbourhood, scaled to integers.
* `Decimal`: digits and a power of ten.
* `Decimal.shortest`: the shortest decimal of a floating-point number's magnitude.
-/

namespace Categorial

/-- The number `digits · 10^exponent`. -/
structure Decimal where
  digits : Nat
  exponent : Int
deriving DecidableEq, Repr, Inhabited

/-- A positive number and the ends of the interval of numbers rounded to it, all over one
denominator. -/
structure Binary where
  low : Nat
  value : Nat
  high : Nat
  denominator : Nat
  /-- The ends belong to the interval. -/
  closed : Bool
deriving DecidableEq, Repr

namespace Binary

/-- The neighbourhood of `m · 2^q`; `narrow` tells that the next smaller number is half as far away
as the next greater one. -/
def ofParts (m : Nat) (q : Int) (narrow : Bool) : Binary :=
  let up := Nat.pow 2 (q - 2).toNat
  { low := (4 * m - (if narrow then 1 else 2)) * up
    value := 4 * m * up
    high := (4 * m + 2) * up
    denominator := Nat.pow 2 (2 - q).toNat
    closed := m % 2 == 0 }

/-- The leading digit of a normal number, `2^52`, which its bits leave out. -/
def hiddenBit : Nat := 0x10000000000000

/-- The magnitude of a finite floating-point number given by its bits; `none` for zero. -/
def ofBits (bits : Nat) : Option Binary :=
  let fraction : Nat := bits % hiddenBit
  let exponent : Nat := bits / hiddenBit % 0x800
  if exponent == 0 then
    if fraction == 0 then none else some (ofParts fraction (-1074) false)
  else
    some (ofParts (hiddenBit + fraction) ((exponent : Int) - 1075) (fraction == 0 && 1 < exponent))

/-- The number is at least `10^e`. -/
def atLeastPow (b : Binary) (e : Int) : Bool :=
  b.denominator * Nat.pow 10 e.toNat ≤ b.value * Nat.pow 10 (-e).toNat

/-- Lower `e` until the number is at least `10^e`, at most `n` times. -/
def lowerPow (b : Binary) : (n : Nat) → (e : Int) → Int
  | 0, e => e
  | n + 1, e => if b.atLeastPow e then e else b.lowerPow n (e - 1)

/-- The greatest power of ten not above the number. -/
def magnitude (b : Binary) : Int :=
  let whole := b.value / b.denominator
  if 0 < whole then ((Nat.toDigits 10 whole).length : Int) - 1 else b.lowerPow 330 (-1)

/-- The place of `c · 10^p` in the neighbourhood: below it, in it, or above it. -/
def locate (b : Binary) (c : Nat) (p : Int) : Ordering :=
  let point := c * Nat.pow 10 p.toNat * b.denominator
  let scale := Nat.pow 10 (-p).toNat
  if point < b.low * scale || (!b.closed && point == b.low * scale) then .lt
  else if b.high * scale < point || (!b.closed && point == b.high * scale) then .gt
  else .eq

/-- The points of the grid of `10^p` next to the number that lie in its interval; the nearer of
two. -/
def gridPoint? (b : Binary) (p : Int) : Option Nat :=
  let scale := Nat.pow 10 (-p).toNat
  let unit := Nat.pow 10 p.toNat * b.denominator
  let c := b.value * scale / unit
  let lowIn := b.locate c p == .eq
  let highIn := b.locate (c + 1) p == .eq
  if lowIn && highIn then
    let remainder := b.value * scale % unit
    some (if 2 * remainder < unit then c else c + 1)
  else if lowIn then some c
  else if highIn then some (c + 1)
  else none

/-- The first hit on the grids from `10^p` down, at most `n` of them. -/
def firstHit (b : Binary) : (n : Nat) → (p : Int) → Decimal
  | 0, p => ⟨b.value * Nat.pow 10 (-p).toNat / (Nat.pow 10 p.toNat * b.denominator), p⟩
  | n + 1, p =>
    match b.gridPoint? p with
    | some c => ⟨c, p⟩
    | none => b.firstHit n (p - 1)

end Binary

namespace Decimal

/-- Move zeros at the end of the digits to the power of ten, at most `n` of them. -/
def trimWithin : (n : Nat) → Decimal → Decimal
  | 0, d => d
  | n + 1, d =>
    if d.digits ≠ 0 ∧ d.digits % 10 = 0 then trimWithin n ⟨d.digits / 10, d.exponent + 1⟩ else d

/-- The same number without zeros at the end of its digits. -/
def trim (d : Decimal) : Decimal := trimWithin (Nat.toDigits 10 d.digits).length d

/-- The shortest decimal that reads back to a finite floating-point number given by its bits, without
its sign. -/
def shortest (bits : Nat) : Decimal :=
  match Binary.ofBits bits with
  | none => ⟨0, 0⟩
  | some b => (b.firstHit 17 b.magnitude).trim

end Decimal

end Categorial
